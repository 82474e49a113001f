import Mathlib.Data.List.Basic
import Mathlib.Data.List.Induction
import Mathlib.Data.List.TakeWhile
import ViewTemplate.Expression.Declarations

/-! # Semicolons outside of parentheses

Declarations are meant to be cut at the semicolons outside of parentheses. The reader does not count
parentheses: it keeps a semicolon if the next parenthesis closes one. In balanced text this is the same
unless a pair opens behind a semicolon that stands inside another pair.
-/

open List

namespace ViewTemplate

namespace Keyed

universe u

variable {α : Type u}

/-- The last value of each key, in the order in which the keys first occur. -/
def lastValues (es : List (String × α)) : List (String × α) :=
  (es.map Prod.fst).eraseDups.filterMap fun key => (es.reverse.lookup key).map fun value => (key, value)

theorem ofList_concat (es : List (String × α)) (e : String × α) :
    ofList (es ++ [e]) = (ofList es).insert e.1 e.2 := by
  rw [ofList, foldl_append]
  rfl

theorem keys_ofList (es : List (String × α)) : (ofList es).keys = (es.map Prod.fst).eraseDups := by
  induction es using List.reverseRecOn with
  | nil => rfl
  | append_singleton es e ih =>
    rw [ofList_concat, keys, entries_insert, map_fst_put, ← keys, ih, map_append, eraseDups_append]
    have hone : [e.1].eraseDups = [e.1] := rfl
    by_cases hmem : e.1 ∈ es.map Prod.fst
    · simp [removeAll, hmem]
    · simp [removeAll, hmem, hone]

theorem get?_ofList (es : List (String × α)) (key : String) :
    (ofList es).get? key = es.reverse.lookup key := by
  induction es using List.reverseRecOn with
  | nil => rfl
  | append_singleton es e ih =>
    rw [ofList_concat, get?_insert, ih, reverse_concat, lookup_cons]
    by_cases hkey : key = e.1
    · simp [hkey]
    · simp [hkey, beq_eq_false_iff_ne.mpr hkey]

theorem entries_eq (m : Keyed α) :
    m.entries = m.keys.filterMap fun key => (m.get? key).map fun value => (key, value) := by
  obtain ⟨entries, distinct⟩ := m
  simp only [keys, get?]
  induction entries with
  | nil => rfl
  | cons e es ih =>
    rw [map_cons, nodup_cons] at distinct
    have hrest : ∀ key ∈ es.map Prod.fst, (e :: es).lookup key = es.lookup key := by
      intro key hkey
      rw [lookup_cons, beq_eq_false_iff_ne.mpr (ne_of_mem_of_not_mem hkey distinct.1)]
    rw [map_cons, filterMap_cons, lookup_cons_self, Option.map_some,
      filterMap_congr fun key hkey => by rw [hrest key hkey], ← ih distinct.2]

theorem entries_ofList (es : List (String × α)) : (ofList es).entries = lastValues es := by
  rw [entries_eq, keys_ofList, lastValues]
  simp only [get?_ofList]

end Keyed

namespace Declarations

variable {c : Char} {s : List Char} {depth next : Nat}

/-- The number of open parentheses after a character, unless it closes one that is not open. -/
def pass? (depth : Nat) (c : Char) : Option Nat :=
  if c = '(' then some (depth + 1)
  else if c = ')' then if depth = 0 then none else some (depth - 1)
  else some depth

/-- The parentheses of the text are paired with each other and with those that are open before it. -/
def IsPaired (depth : Nat) (s : List Char) : Prop := s.foldlM pass? depth = some 0

instance : Decidable (IsPaired depth s) := inferInstanceAs (Decidable (_ = _))

/-- Cuts at the semicolons outside of parentheses. -/
def outerPieces (depth : Nat) : List Char → List (List Char)
  | [] => [[]]
  | c :: s =>
    if c = ';' ∧ depth = 0 then [] :: outerPieces 0 s
    else (outerPieces ((pass? depth c).getD 0) s).modifyHead (c :: ·)

/-- What a piece declares: the text before its first colon, and the text after it unless that is empty. -/
def declaration? (piece : List Char) : Option (String × String) :=
  match piece.dropWhile (· ≠ ':') with
  | _ :: c :: value =>
    some (String.ofList (Text.trim (piece.takeWhile (· ≠ ':'))), String.ofList (Text.trim (c :: value)))
  | _ => none

/-- The declarations between the semicolons outside of parentheses. -/
def outerDeclarations (style : String) : List (String × String) :=
  Keyed.lastValues ((outerPieces 0 style.toList).filterMap declaration?)

/-- Behind a semicolon inside parentheses the next parenthesis closes one. -/
def ClosesBehind (depth : Nat) (s : List Char) : Prop :=
  ∀ before after inside, s = before ++ ';' :: after →
    before.foldlM pass? depth = some (inside + 1) → closesNext after = true

/-- Outside of parentheses none is closed next. -/
theorem closesNext_of_isPaired (h : IsPaired 0 s) : closesNext s = false := by
  induction s with
  | nil => rfl
  | cons c s ih =>
    rw [IsPaired, foldlM_cons] at h
    by_cases hopen : c = '('
    · simp [closesNext, hopen]
    · by_cases hclose : c = ')'
      · rw [hclose] at h
        cases h
      · rw [pass?, if_neg hopen, if_neg hclose] at h
        rw [closesNext, find?_cons_of_neg (by simp [hopen, hclose])]
        exact ih h

theorem property?_eq (piece : List Char) : property? piece = declaration? piece := by
  have hname : ':' ∉ piece.takeWhile (· ≠ ':') := fun hmem => by simpa using mem_takeWhile_imp hmem
  have hpiece := takeWhile_append_dropWhile (p := (· ≠ ':')) (l := piece)
  rw [property?, declaration?]
  cases hrest : piece.dropWhile (· ≠ ':') with
  | nil =>
    rw [hrest, append_nil] at hpiece
    rw [Text.cut?_of_not_mem (hpiece ▸ hname)]
  | cons d value =>
    have hd := Text.stopsAt_dropWhile (· ≠ ':') piece d (by rw [hrest]; rfl)
    obtain rfl : d = ':' := by simpa using hd
    have hcut := Text.cut?_append_of_not_mem hname [] value
    rw [cons_append, nil_append, ← hrest, hpiece] at hcut
    rw [hcut]
    cases value with
    | nil => rfl
    | cons c value => rfl

theorem pieces_ne_nil (s : List Char) : pieces s ≠ [] := by
  cases s with
  | nil => simp [pieces]
  | cons c s =>
    rw [pieces]
    split
    · simp
    · split <;> simp

theorem pieces_cons (c : Char) (s : List Char) :
    pieces (c :: s) = if c = ';' ∧ closesNext s = false then [] :: pieces s
      else (pieces s).modifyHead (c :: ·) := by
  rw [pieces]
  cases hpieces : pieces s with
  | nil => exact absurd hpieces (pieces_ne_nil s)
  | cons piece others => simp

theorem closesBehind_cons (hpass : pass? depth c = some next) :
    ClosesBehind depth (c :: s) ↔
      (c = ';' → depth ≠ 0 → closesNext s = true) ∧ ClosesBehind next s := by
  constructor
  · intro h
    refine ⟨?_, fun before after inside hs hinside => ?_⟩
    · rintro rfl hdepth
      obtain ⟨inside, rfl⟩ := Nat.exists_eq_succ_of_ne_zero hdepth
      exact h [] s inside rfl rfl
    · refine h (c :: before) after inside (by rw [hs]; rfl) ?_
      rw [foldlM_cons, hpass]
      exact hinside
  · rintro ⟨hfirst, hrest⟩ before after inside hs hinside
    cases before with
    | nil =>
      cases hs
      cases hinside
      exact hfirst rfl (Nat.succ_ne_zero inside)
    | cons d before =>
      cases hs
      rw [foldlM_cons, hpass] at hinside
      exact hrest before after inside rfl hinside

theorem modifyHead_cons_inj {c : Char} {l m : List (List Char)} :
    l.modifyHead (c :: ·) = m.modifyHead (c :: ·) ↔ l = m := by
  cases l <;> cases m <;> simp

theorem pieces_eq_iff (h : IsPaired depth s) :
    pieces s = outerPieces depth s ↔ ClosesBehind depth s := by
  induction s generalizing depth with
  | nil => exact iff_of_true rfl fun before after inside hs => by simp at hs
  | cons c s ih =>
    rw [IsPaired, foldlM_cons, Option.bind_eq_bind, Option.bind_eq_some_iff] at h
    obtain ⟨next, hpass, hrest⟩ := h
    rw [pieces_cons, outerPieces, closesBehind_cons hpass, hpass, Option.getD_some]
    by_cases hc : c = ';'
    · subst hc
      obtain rfl : depth = next := by simpa [pass?] using hpass
      cases depth with
      | zero => simp [closesNext_of_isPaired hrest, ih hrest]
      | succ inside =>
        cases hnext : closesNext s with
        | true => simp [modifyHead_cons_inj, ih hrest]
        | false =>
          cases hpieces : outerPieces (inside + 1) s <;> simp
    · simp only [hc, false_and, if_false, modifyHead_cons_inj, ih hrest, false_implies, true_and]

/-- Styles with paired parentheses are cut at the semicolons outside of parentheses if and only if behind
each of the others the next parenthesis closes one. Then the declarations read are those between the
outer semicolons. -/
theorem pieces_outer_iff (style : String) (h : IsPaired 0 style.toList) :
    (pieces style.toList = outerPieces 0 style.toList ↔ ClosesBehind 0 style.toList) ∧
      (ClosesBehind 0 style.toList → (read style).entries = outerDeclarations style) := by
  have hpieces := pieces_eq_iff h
  refine ⟨hpieces, fun hcloses => ?_⟩
  rw [read, Keyed.entries_ofList, outerDeclarations, hpieces.mpr hcloses]
  rw [funext property?_eq]

/-- A semicolon in the inner one of two pairs. -/
theorem pieces_outer_iff_of_nested_pairs :
    IsPaired 0 "a:f(g(b;c));d:e;a:h".toList ∧ ClosesBehind 0 "a:f(g(b;c));d:e;a:h".toList ∧
      (read "a:f(g(b;c));d:e;a:h").entries = outerDeclarations "a:f(g(b;c));d:e;a:h" := by
  have hpaired : IsPaired 0 "a:f(g(b;c));d:e;a:h".toList := by decide
  obtain ⟨hpieces, hread⟩ := pieces_outer_iff _ hpaired
  have hcloses := hpieces.mp (by decide)
  exact ⟨hpaired, hcloses, hread hcloses⟩

/-- A semicolon inside parentheses cuts the value, if another pair opens behind it. -/
theorem value_cut_before_inner_pair :
    IsPaired 0 "a:f(b;g(c))".toList ∧ (read "a:f(b;g(c))").entries = [("a", "f(b")] ∧
      outerDeclarations "a:f(b;g(c))" = [("a", "f(b;g(c))")] := by
  decide

end Declarations

end ViewTemplate

import ViewTemplate.Text.Blank
import ViewTemplate.Text.Cut

/-! # Blanks around a text

A text is its leading blanks, the trimmed text and the blanks after it, and these parts are found
again: blanks around a trimmed text are all that trimming removes.
-/

open List

namespace ViewTemplate.Text

/-- A text with no blank at either end. -/
def IsTrimmed (s : List Char) : Prop := StopsAt isBlank s ∧ StopsAt isBlank s.reverse

theorem trim_append {before inside after : List Char} (hbefore : allBlank before = true)
    (hinside : IsTrimmed inside) (hafter : allBlank after = true) :
    trim (before ++ inside ++ after) = inside := by
  rw [allBlank, List.all_eq_true] at hbefore hafter
  have hreversed : ∀ c ∈ after.reverse, isBlank c = true := fun c hc =>
    hafter c (mem_reverse.mp hc)
  cases hnil : inside with
  | nil =>
    have hblank : trimStart (before ++ [] ++ after) = [] := by
      rw [append_nil, trimStart_eq_nil_iff, allBlank, List.all_eq_true]
      exact forall_mem_append.mpr ⟨hbefore, hafter⟩
    rw [trim, hblank]
    rfl
  | cons c r =>
    rw [← hnil, append_assoc]
    have hstart : StopsAt isBlank (inside ++ after) := by
      refine hinside.1.of_head? ?_
      rw [hnil, cons_append, head?_cons, head?_cons]
    have htrim : trimStart (before ++ (inside ++ after)) = inside ++ after :=
      hstart.dropWhile_of_all hbefore
    rw [trim, htrim, trimEnd, trimStart, reverse_append,
      hinside.2.dropWhile_of_all hreversed, reverse_reverse]

theorem takeWhile_append_of_isTrimmed {before inside after : List Char}
    (hbefore : allBlank before = true) (hinside : IsTrimmed inside) (hne : inside ≠ []) :
    (before ++ inside ++ after).takeWhile isBlank = before := by
  rw [allBlank, List.all_eq_true] at hbefore
  obtain ⟨c, r, rfl⟩ := exists_cons_of_ne_nil hne
  have hstart : StopsAt isBlank (c :: r ++ after) := hinside.1.of_head? rfl
  rw [append_assoc, hstart.takeWhile_of_all hbefore]

theorem isTrimmed_trim (s : List Char) : IsTrimmed (trim s) := by
  constructor
  · -- The start of the trimmed text is that of the text without its leading blanks.
    intro c hc
    have hstops := stopsAt_dropWhile isBlank s
    have hsplit : trim s ++ ((trimStart s).reverse.takeWhile isBlank).reverse = trimStart s := by
      rw [trim, trimEnd, trimStart, ← reverse_append, takeWhile_append_dropWhile,
        reverse_reverse]
    refine hstops c ?_
    rw [← trimStart, ← hsplit, head?_append, Option.mem_def.mp hc]
    rfl
  · rw [trim, trimEnd, reverse_reverse]
    exact stopsAt_dropWhile isBlank _

theorem trim_of_isTrimmed {s : List Char} (h : IsTrimmed s) : trim s = s := by
  have heq := @trim_append [] s [] rfl h rfl
  rwa [nil_append, append_nil] at heq

/-- The blanks after the trimmed text. -/
def trailing (s : List Char) : List Char := ((trimStart s).reverse.takeWhile isBlank).reverse

theorem allBlank_trailing (s : List Char) : allBlank (trailing s) = true := by
  rw [allBlank, trailing, all_reverse]
  exact all_takeWhile

theorem allBlank_takeWhile (s : List Char) : allBlank (s.takeWhile isBlank) = true :=
  all_takeWhile

theorem append_trim_append (s : List Char) : s.takeWhile isBlank ++ trim s ++ trailing s = s := by
  have hend : trim s ++ trailing s = trimStart s := by
    rw [trim, trimEnd, trailing, trimStart, ← reverse_append, takeWhile_append_dropWhile,
      reverse_reverse]
  rw [append_assoc, hend, takeWhile_append_trimStart]

end ViewTemplate.Text

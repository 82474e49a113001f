/-! # Blank characters

Templates, expressions and configuration values are trimmed of the same characters: those with the
Unicode White_Space property. Functions work on character lists; `onChars` lifts one to strings.
-/

namespace ViewTemplate.Text

/-- A function on characters, applied to a string. -/
def onChars (f : List Char → List Char) (s : String) : String :=
  String.ofList (f s.toList)

@[simp] theorem toList_onChars (f : List Char → List Char) (s : String) :
    (onChars f s).toList = f s.toList := by
  simp [onChars]

/-- The code points that the White_Space property holds of. -/
def isBlank (c : Char) : Bool :=
  let n := c.toNat
  (9 ≤ n && n ≤ 13) || n == 0x20 || n == 0x85 || n == 0xA0 || n == 0x1680 ||
    (0x2000 ≤ n && n ≤ 0x200A) || n == 0x2028 || n == 0x2029 || n == 0x202F || n == 0x205F ||
    n == 0x3000

/-- Drops the leading blanks. -/
def trimStart (s : List Char) : List Char :=
  s.dropWhile isBlank

/-- Drops the blanks at the end. -/
def trimEnd (s : List Char) : List Char :=
  (trimStart s.reverse).reverse

/-- Drops the blanks at both ends. -/
def trim (s : List Char) : List Char :=
  trimEnd (trimStart s)

/-- Holds of the empty text and of blanks only. -/
def allBlank (s : List Char) : Bool :=
  s.all isBlank

/-- Writes one space for each run of characters that `p` holds of. -/
def condense (p : Char → Bool) : List Char → List Char
  | [] => []
  | [c] => if p c then [' '] else [c]
  | c :: d :: s =>
    if p c then
      if p d then condense p (d :: s) else ' ' :: condense p (d :: s)
    else c :: condense p (d :: s)

theorem trimStart_eq_nil_iff (s : List Char) : trimStart s = [] ↔ allBlank s = true := by
  induction s with
  | nil => simp [trimStart, allBlank]
  | cons c s ih =>
      cases hc : isBlank c with
      | true =>
          rw [trimStart, List.dropWhile_cons_of_pos hc, allBlank, List.all_cons, hc, Bool.true_and]
          exact ih
      | false => simp [trimStart, allBlank, hc]

/-- Trimming at the start removes blanks and nothing else. -/
theorem takeWhile_append_trimStart (s : List Char) :
    s.takeWhile isBlank ++ trimStart s = s :=
  List.takeWhile_append_dropWhile

end ViewTemplate.Text

/-! # Cutting text at a pattern

`after?` strips a pattern from the front, `cut?` finds its first occurrence. Both are pinned down by
the concatenation they undo. Offsets into a text count the bytes of its UTF-8 form.
-/

namespace ViewTemplate.Text

/-- What follows the pattern, where the text starts with it. -/
def after? : List Char → List Char → Option (List Char)
  | [], s => some s
  | _ :: _, [] => none
  | p :: ps, c :: s => if p = c then after? ps s else none

/-- Whether the text starts with the pattern. -/
def startsWith (p s : List Char) : Bool :=
  (after? p s).isSome

/-- What stands before and after the first occurrence of the pattern. -/
def cut? (p : List Char) : List Char → Option (List Char × List Char)
  | [] => (after? p []).map fun r => ([], r)
  | c :: s =>
    match after? p (c :: s) with
    | some r => some ([], r)
    | none => (cut? p s).map fun (a, b) => (c :: a, b)

/-- Whether the pattern occurs in the text. -/
def occurs (p s : List Char) : Bool :=
  (cut? p s).isSome

/-- What stands before and after the last occurrence of a character. -/
def cutLast? (x : Char) : List Char → Option (List Char × List Char)
  | [] => none
  | c :: s =>
    match cutLast? x s with
    | some (a, b) => some (c :: a, b)
    | none => if c = x then some ([], s) else none

/-- The pieces between the occurrences of a character. -/
def splitOn (x : Char) : List Char → List (List Char)
  | [] => [[]]
  | c :: s =>
    match splitOn x s with
    | [] => [[c]]
    | piece :: pieces => if c = x then [] :: piece :: pieces else (c :: piece) :: pieces

/-- Number of bytes of the UTF-8 form. -/
def byteLength : List Char → Nat
  | [] => 0
  | c :: s => c.utf8Size + byteLength s

theorem after?_eq_some_iff {p s r : List Char} : after? p s = some r ↔ s = p ++ r := by
  induction p generalizing s with
  | nil => simp [after?, eq_comm]
  | cons c p ih =>
      cases s with
      | nil => simp [after?]
      | cons d s =>
          by_cases h : c = d
          · simp [after?, h, ih]
          · simp [after?, h, Ne.symm h]

@[simp] theorem after?_append (p r : List Char) : after? p (p ++ r) = some r :=
  after?_eq_some_iff.2 rfl

theorem startsWith_iff {p s : List Char} : startsWith p s = true ↔ ∃ r, s = p ++ r := by
  simp [startsWith, Option.isSome_iff_exists, after?_eq_some_iff]

/-- A cut undoes a concatenation. -/
theorem eq_of_cut? {p s a b : List Char} (h : cut? p s = some (a, b)) : s = a ++ p ++ b := by
  induction s generalizing a with
  | nil =>
      simp only [cut?, Option.map_eq_some_iff, Prod.mk.injEq] at h
      obtain ⟨r, hr, rfl, rfl⟩ := h
      simpa using after?_eq_some_iff.1 hr
  | cons c s ih =>
      rw [cut?] at h
      split at h
      · rename_i r hr
        cases h
        simpa using after?_eq_some_iff.1 hr
      · simp only [Option.map_eq_some_iff, Prod.mk.injEq] at h
        obtain ⟨⟨a', b'⟩, hc, rfl, rfl⟩ := h
        simp [ih hc]

theorem length_of_cut? {p s a b : List Char} (h : cut? p s = some (a, b)) :
    a.length + p.length + b.length = s.length := by
  rw [eq_of_cut? h]
  simp only [List.length_append]

/-- The first occurrence of a pattern whose first character does not stand before it. -/
theorem cut?_append_of_not_mem {x : Char} {a : List Char} (h : x ∉ a) (p b : List Char) :
    cut? (x :: p) (a ++ (x :: p ++ b)) = some (a, b) := by
  induction a with
  | nil => rw [List.nil_append, List.cons_append, cut?, ← List.cons_append, after?_append]
  | cons c a ih =>
      rw [List.mem_cons, not_or] at h
      rw [List.cons_append, cut?, after?, if_neg h.1, ih h.2]
      rfl

theorem cut?_of_not_mem {x : Char} {s : List Char} (h : x ∉ s) (p : List Char) :
    cut? (x :: p) s = none := by
  rw [Option.eq_none_iff_forall_ne_some]
  rintro ⟨a, b⟩ hcut
  exact h (eq_of_cut? hcut ▸ by simp)

theorem cutLast?_of_not_mem {x : Char} {s : List Char} (h : x ∉ s) : cutLast? x s = none := by
  induction s with
  | nil => rfl
  | cons c s ih =>
      rw [List.mem_cons, not_or] at h
      rw [cutLast?, ih h.2]
      exact if_neg (Ne.symm h.1)

theorem cutLast?_append_cons {x : Char} (before : List Char) {s : List Char} (h : x ∉ s) :
    cutLast? x (before ++ x :: s) = some (before, s) := by
  induction before with
  | nil =>
      rw [List.nil_append, cutLast?, cutLast?_of_not_mem h]
      exact if_pos rfl
  | cons c before ih => rw [List.cons_append, cutLast?, ih]

@[simp] theorem byteLength_nil : byteLength [] = 0 := rfl

@[simp] theorem byteLength_cons (c : Char) (s : List Char) :
    byteLength (c :: s) = c.utf8Size + byteLength s := rfl

@[simp] theorem byteLength_append (s t : List Char) :
    byteLength (s ++ t) = byteLength s + byteLength t := by
  induction s with
  | nil => simp
  | cons c s ih =>
      rw [List.cons_append, byteLength_cons, byteLength_cons, ih, Nat.add_assoc]

theorem byteLength_pos {s : List Char} (h : s ≠ []) : 0 < byteLength s := by
  cases s with
  | nil => exact absurd rfl h
  | cons c s =>
      have hc := c.utf8Size_pos
      rw [byteLength_cons]
      omega

/-- Splits at a byte offset, which has to lie between two characters or at an end. -/
def splitAtByte? : List Char → Nat → Option (List Char × List Char)
  | [], n => if n = 0 then some ([], []) else none
  | c :: s, n =>
    if n = 0 then some ([], c :: s)
    else if c.utf8Size ≤ n then
      (splitAtByte? s (n - c.utf8Size)).map fun (a, b) => (c :: a, b)
    else none

/-- A split at a byte offset undoes a concatenation whose first part has that many bytes. -/
theorem splitAtByte?_eq_some_iff {s a b : List Char} {n : Nat} :
    splitAtByte? s n = some (a, b) ↔ s = a ++ b ∧ byteLength a = n := by
  induction s generalizing a n with
  | nil =>
      by_cases hn : n = 0
      · simp only [splitAtByte?, hn, if_true, Option.some.injEq, Prod.mk.injEq]
        constructor
        · rintro ⟨rfl, rfl⟩
          simp
        · rintro ⟨h, -⟩
          obtain ⟨rfl, rfl⟩ := List.append_eq_nil_iff.1 h.symm
          simp
      · simp only [splitAtByte?, hn, if_false, reduceCtorEq, false_iff, not_and]
        intro h
        obtain ⟨rfl, rfl⟩ := List.append_eq_nil_iff.1 h.symm
        simpa using Ne.symm hn
  | cons c s ih =>
      have hc := c.utf8Size_pos
      by_cases hn : n = 0
      · simp only [splitAtByte?, hn, if_true, Option.some.injEq, Prod.mk.injEq]
        constructor
        · rintro ⟨rfl, rfl⟩
          simp
        · rintro ⟨h, ha⟩
          cases a with
          | nil => simpa using h
          | cons d a =>
              have hd := d.utf8Size_pos
              simp only [byteLength_cons] at ha
              omega
      · by_cases hle : c.utf8Size ≤ n
        · simp only [splitAtByte?, hn, if_false, hle, if_true, Option.map_eq_some_iff,
            Prod.exists, Prod.mk.injEq]
          constructor
          · rintro ⟨a', b', h, rfl, rfl⟩
            obtain ⟨rfl, ha⟩ := ih.1 h
            exact ⟨by simp, by simp only [byteLength_cons]; omega⟩
          · rintro ⟨h, ha⟩
            cases a with
            | nil =>
                simp only [byteLength_nil] at ha
                omega
            | cons d a =>
                simp only [List.cons_append, List.cons.injEq] at h
                obtain ⟨rfl, rfl⟩ := h
                simp only [byteLength_cons] at ha
                exact ⟨a, b, ih.2 ⟨rfl, by omega⟩, rfl, rfl⟩
        · simp only [splitAtByte?, hn, if_false, hle, reduceCtorEq, false_iff, not_and]
          intro h ha
          cases a with
          | nil =>
              simp only [byteLength_nil] at ha
              omega
          | cons d a =>
              simp only [List.cons_append, List.cons.injEq] at h
              obtain ⟨rfl, rfl⟩ := h
              simp only [byteLength_cons] at ha
              omega

/-! ## Runs of a class -/

/-- A text that does not go on with a character of a class. -/
def StopsAt (p : Char → Bool) (s : List Char) : Prop := ∀ c ∈ s.head?, p c = false

theorem stopsAt_dropWhile (p : Char → Bool) (s : List Char) : StopsAt p (s.dropWhile p) := by
  intro c hc
  have hhead := List.head?_dropWhile_not p s
  rw [Option.mem_def.mp hc] at hhead
  simpa using hhead

theorem StopsAt.of_head? {p : Char → Bool} {s t : List Char} (h : StopsAt p s)
    (heq : t.head? = s.head?) : StopsAt p t := by
  rwa [StopsAt, heq]

theorem StopsAt.takeWhile_append {p : Char → Bool} {rest : List Char} (h : StopsAt p rest)
    (s : List Char) : (s ++ rest).takeWhile p = s.takeWhile p := by
  induction s with
  | nil =>
      cases rest with
      | nil => rfl
      | cons c rest => rw [List.nil_append, List.takeWhile_cons, h c rfl]; rfl
  | cons c s ih => rw [List.cons_append, List.takeWhile_cons, List.takeWhile_cons, ih]

theorem StopsAt.dropWhile_append {p : Char → Bool} {rest : List Char} (h : StopsAt p rest)
    (s : List Char) : (s ++ rest).dropWhile p = s.dropWhile p ++ rest := by
  induction s with
  | nil =>
      cases rest with
      | nil => rfl
      | cons c rest => rw [List.nil_append, List.dropWhile_cons, h c rfl]; rfl
  | cons c s ih =>
      rw [List.cons_append, List.dropWhile_cons, List.dropWhile_cons, ih]
      split <;> rfl

/-- A text of a class ends before a text that does not go on with the class. -/
theorem StopsAt.takeWhile_of_all {p : Char → Bool} {s rest : List Char} (h : StopsAt p rest)
    (hs : ∀ c ∈ s, p c = true) : (s ++ rest).takeWhile p = s := by
  have hnone : rest.takeWhile p = [] := by simpa using h.takeWhile_append []
  rw [List.takeWhile_append_of_pos hs, hnone, List.append_nil]

theorem StopsAt.dropWhile_of_all {p : Char → Bool} {s rest : List Char} (h : StopsAt p rest)
    (hs : ∀ c ∈ s, p c = true) : (s ++ rest).dropWhile p = rest := by
  have hsame : rest.dropWhile p = rest := by simpa using h.dropWhile_append []
  rw [List.dropWhile_append_of_pos hs, hsame]

theorem StopsAt.takeWhile_takeWhile {p : Char → Bool} {rest : List Char} (h : StopsAt p rest)
    (s : List Char) : (s.takeWhile p ++ rest).takeWhile p = s.takeWhile p :=
  h.takeWhile_of_all (List.all_eq_true.mp List.all_takeWhile)

theorem StopsAt.dropWhile_takeWhile {p : Char → Bool} {rest : List Char} (h : StopsAt p rest)
    (s : List Char) : (s.takeWhile p ++ rest).dropWhile p = rest :=
  h.dropWhile_of_all (List.all_eq_true.mp List.all_takeWhile)

end ViewTemplate.Text

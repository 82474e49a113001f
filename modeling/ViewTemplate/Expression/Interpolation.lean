import ViewTemplate.Expression.Filter
import ViewTemplate.Text.Quoted

/-! # Interpolated text

A text is cut into literals and bindings. A binding stands between delimiters and holds at least one
character; of all ways to read a text the leftmost opening and, for it, the nearest closing count.
-/

namespace ViewTemplate

/-- The marks around a binding. -/
structure Delimiters where
  opening : String
  closing : String
  deriving DecidableEq, Repr, Inhabited

namespace Delimiters

/-- Double braces. -/
def standard : Delimiters := ⟨"\x7b\x7b", "\x7d\x7d"⟩

end Delimiters

/-- A piece of interpolated text. -/
inductive Token
  | literal (text : String)
  | binding (expression : String)
  deriving DecidableEq, Repr, Inhabited

namespace Token

/-- Source of the value of a token. -/
def code : Token → String
  | .literal text => Text.quote text
  | .binding expression => "_s(" ++ expression ++ ")"

/-- Source of the concatenation of all tokens. -/
def joinCode (tokens : List Token) : String :=
  "+".intercalate (tokens.map code)

end Token

namespace Interpolation

/-- A text of at least one character up to a closing mark, and what follows the mark. -/
def inner? (closing : List Char) : List Char → Option (List Char × List Char)
  | [] => none
  | c :: s => (Text.cut? closing s).map fun (a, rest) => (c :: a, rest)

/-- The text before the first binding, what the binding holds, and the text after it. -/
def next? (opening closing : List Char) : List Char → Option (List Char × List Char × List Char)
  | [] => none
  | c :: s =>
    match (Text.after? opening (c :: s)).bind (inner? closing) with
    | some (inside, rest) => some ([], inside, rest)
    | none => (next? opening closing s).map fun (before, inside, rest) => (c :: before, inside, rest)

theorem length_of_inner? {closing s inside rest : List Char}
    (h : inner? closing s = some (inside, rest)) : rest.length < s.length := by
  cases s with
  | nil => simp [inner?] at h
  | cons c s =>
      simp only [inner?, Option.map_eq_some_iff, Prod.exists, Prod.mk.injEq] at h
      obtain ⟨a, r, hc, -, rfl⟩ := h
      have := Text.length_of_cut? hc
      simp only [List.length_cons]
      omega

theorem length_of_next? {opening closing s before inside rest : List Char}
    (h : next? opening closing s = some (before, inside, rest)) : rest.length < s.length := by
  induction s generalizing before with
  | nil => simp [next?] at h
  | cons c s ih =>
      rw [next?] at h
      split at h
      · rename_i i r hb
        cases h
        obtain ⟨t, ht, hi⟩ := Option.bind_eq_some_iff.1 hb
        have hs := congrArg List.length (Text.after?_eq_some_iff.1 ht)
        have hr := length_of_inner? hi
        simp only [List.length_append, List.length_cons] at hs ⊢
        omega
      · simp only [Option.map_eq_some_iff, Prod.exists, Prod.mk.injEq] at h
        obtain ⟨b, i, r, hn, -, rfl, rfl⟩ := h
        have := ih hn
        simp only [List.length_cons]
        omega

/-- A literal token, where there is text for one. -/
def literalOf (text : List Char) : List Token :=
  if text.isEmpty then [] else [.literal (String.ofList text)]

/-- The binding token for what stands between delimiters. -/
def bindingOf (inside : List Char) : Token :=
  .binding (String.ofList (Filter.resolveChars (Text.trim inside)))

/-- The tokens of a text from the left. -/
def tokens (opening closing : List Char) (s : List Char) : List Token :=
  match _h : next? opening closing s with
  | none => literalOf s
  | some (before, inside, rest) =>
    literalOf before ++ bindingOf inside :: tokens opening closing rest
termination_by s.length
decreasing_by exact length_of_next? _h

/-- The tokens of a text that holds a binding. -/
def read? (delimiters : Option Delimiters) (text : String) : Option (List Token) :=
  let d := delimiters.getD .standard
  let opening := d.opening.toList
  let closing := d.closing.toList
  if (next? opening closing text.toList).isSome then some (tokens opening closing text.toList)
  else none

end Interpolation

end ViewTemplate

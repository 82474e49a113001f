import Mathlib.Data.List.Chain
import ViewTemplate.Proofs.RawTextElements
import ViewTemplate.Tree

/-! # Pieces of interpolated text

The tokens of a text come from pieces that join to the text, so nothing is lost or read twice. Two
literals never meet, and a binding ends at the first closing mark after its first character. A text has
no tokens just if no opening mark is followed by such an end.
-/

open List Option

namespace ViewTemplate

namespace Text

/-- What stands before the first occurrence of a pattern holds no other. -/
theorem not_infix_of_cut? {p s a b : List Char} (hp : p ≠ []) (h : cut? p s = some (a, b)) :
    ¬ p <:+: a := by
  rintro ⟨x, y, rfl⟩
  obtain ⟨before, after, hcut, hle⟩ := exists_cut?_append p x (y ++ p ++ b)
  have hs : s = x ++ (p ++ (y ++ p ++ b)) := by rw [eq_of_cut? h]; simp
  rw [← hs, h] at hcut
  cases hcut
  have hpos := length_pos_iff.mpr hp
  simp only [length_append] at hle
  omega

end Text

namespace Interpolation

variable {opening closing s : List Char}

/-- What a binding may hold: it ends at the first closing mark after its first character. -/
def IsInside (closing inside : List Char) : Prop := inside ≠ [] ∧ ¬ closing <:+: inside.tail

theorem inner?_eq_some {inside rest : List Char} (hclosing : closing ≠ [])
    (h : inner? closing s = some (inside, rest)) :
    s = inside ++ closing ++ rest ∧ IsInside closing inside := by
  cases s with
  | nil => cases h
  | cons c s =>
    simp only [inner?, map_eq_some_iff, Prod.exists, Prod.mk.injEq] at h
    obtain ⟨a, _, hcut, rfl, rfl⟩ := h
    refine ⟨congrArg (c :: ·) (Text.eq_of_cut? hcut), cons_ne_nil c a, ?_⟩
    exact Text.not_infix_of_cut? hclosing hcut

theorem inner?_ne_none {inside rest : List Char} (hinside : inside ≠ []) :
    inner? closing (inside ++ closing ++ rest) ≠ none := by
  obtain ⟨c, a, rfl⟩ := exists_cons_of_ne_nil hinside
  obtain ⟨before, after, hcut, -⟩ := Text.exists_cut?_append closing a rest
  rw [append_assoc, cons_append, inner?, hcut]
  exact some_ne_none _

theorem next?_eq_some {before inside rest : List Char} (hclosing : closing ≠ [])
    (h : next? opening closing s = some (before, inside, rest)) :
    s = before ++ opening ++ inside ++ closing ++ rest ∧ IsInside closing inside := by
  induction s generalizing before with
  | nil => cases h
  | cons c s ih =>
    rw [next?] at h
    split at h
    · rename_i hfound
      cases h
      obtain ⟨t, hafter, hinner⟩ := bind_eq_some_iff.mp hfound
      obtain ⟨rfl, hinside⟩ := inner?_eq_some hclosing hinner
      rw [Text.after?_eq_some_iff.mp hafter]
      exact ⟨by simp, hinside⟩
    · simp only [map_eq_some_iff, Prod.exists, Prod.mk.injEq] at h
      obtain ⟨b, _, _, hnext, rfl, rfl, rfl⟩ := h
      obtain ⟨hs, hinside⟩ := ih hnext
      exact ⟨congrArg (c :: ·) hs, hinside⟩

/-- An opening mark with an end for it is not passed over. -/
theorem next?_ne_none {a inside b : List Char} (hinside : inside ≠ []) :
    next? opening closing (a ++ opening ++ inside ++ closing ++ b) ≠ none := by
  induction a with
  | nil =>
    have hinner : inner? closing (inside ++ closing ++ b) ≠ none := inner?_ne_none hinside
    cases hs : [] ++ opening ++ inside ++ closing ++ b with
    | nil => simp [hinside] at hs
    | cons c s =>
      have hafter : Text.after? opening (c :: s) = some (inside ++ closing ++ b) :=
        Text.after?_eq_some_iff.mpr (by rw [← hs]; simp)
      rw [next?, hafter, bind_some]
      split
      · exact some_ne_none _
      · rename_i hnone
        exact absurd hnone hinner
  | cons c a ih =>
    simp only [cons_append]
    rw [next?]
    split
    · exact some_ne_none _
    · simpa using ih

/-- A piece of interpolated text as it is written. -/
inductive Piece
  | literal (text : String)
  | binding (inside : String)

namespace Piece

def isLiteral : Piece → Bool
  | .literal _ => true
  | .binding _ => false

/-- The text that a piece takes up. -/
def source (d : Delimiters) : Piece → String
  | .literal text => text
  | .binding inside => d.opening ++ inside ++ d.closing

def token : Piece → Token
  | .literal text => .literal text
  | .binding inside => .binding (Filter.resolve (Text.onChars Text.trim inside))

/-- Source of the value of a piece. -/
def code : Piece → String
  | .literal text => Text.quote text
  | .binding inside => "_s(" ++ Filter.resolve (Text.onChars Text.trim inside) ++ ")"

/-- Literals hold something, and bindings end where they can. -/
def Fits (d : Delimiters) : Piece → Prop
  | .literal text => text ≠ ""
  | .binding inside => IsInside d.closing.toList inside.toList

end Piece

/-- Pieces that make up a text. -/
structure Pieces (d : Delimiters) (s : List Char) (pieces : List Piece) : Prop where
  source : s = pieces.flatMap fun p => (p.source d).toList
  fits : ∀ p ∈ pieces, p.Fits d
  apart : pieces.IsChain fun p q => ¬ (p.isLiteral ∧ q.isLiteral)

/-- The pieces of a text without bindings. -/
def plainPieces (s : List Char) : List Piece :=
  if s.isEmpty then [] else [.literal (String.ofList s)]

theorem map_token_plainPieces (s : List Char) : (plainPieces s).map Piece.token = literalOf s := by
  cases s <;> rfl

theorem pieces_plain (d : Delimiters) (s : List Char) : Pieces d s (plainPieces s) := by
  cases s with
  | nil => exact ⟨rfl, forall_mem_nil _, .nil⟩
  | cons c s =>
    refine ⟨by simp [plainPieces, Piece.source], ?_, .singleton _⟩
    simp [plainPieces, Piece.Fits]

/-- A text goes on with a binding, and then with pieces of its own. -/
theorem Pieces.append {d : Delimiters} {before inside rest : List Char} {pieces : List Piece}
    (h : Pieces d rest pieces) (hinside : IsInside d.closing.toList inside) :
    Pieces d (before ++ d.opening.toList ++ inside ++ d.closing.toList ++ rest)
      (plainPieces before ++ .binding (String.ofList inside) :: pieces) := by
  have hplain := pieces_plain d before
  constructor
  · rw [flatMap_append, ← hplain.source, flatMap_cons, ← h.source]
    simp [Piece.source]
  · rw [forall_mem_append, forall_mem_cons]
    exact ⟨hplain.fits, by simpa [Piece.Fits] using hinside, h.fits⟩
  · have hbinding : (Piece.binding (String.ofList inside) :: pieces).IsChain
        fun p q => ¬ (p.isLiteral ∧ q.isLiteral) :=
      isChain_cons.mpr ⟨fun _ _ => by simp [Piece.isLiteral], h.apart⟩
    cases before with
    | nil => exact hbinding
    | cons c before =>
      exact isChain_cons.mpr ⟨by simp [Piece.isLiteral], hbinding⟩

/-- The tokens of a text are those of its pieces. -/
theorem exists_pieces (d : Delimiters) (hclosing : d.closing.toList ≠ []) (s : List Char) :
    ∃ pieces, Pieces d s pieces ∧
      tokens d.opening.toList d.closing.toList s = pieces.map Piece.token := by
  induction hn : s.length using Nat.strongRecOn generalizing s with
  | ind n ih =>
    rw [tokens]
    split
    · exact ⟨plainPieces s, pieces_plain d s, (map_token_plainPieces s).symm⟩
    · rename_i before inside rest hnext
      obtain ⟨pieces, hpieces, htokens⟩ := ih _ (hn ▸ length_of_next? hnext) rest rfl
      obtain ⟨rfl, hinside⟩ := next?_eq_some hclosing hnext
      refine ⟨_, hpieces.append hinside, ?_⟩
      rw [htokens, map_append, map_token_plainPieces, map_cons]
      simp [bindingOf, Piece.token, Filter.resolve, Text.onChars]

/-- Interpolated text is cut without loss. There are no tokens just if no opening mark is followed,
after at least one character, by a closing mark. Otherwise the tokens, and with them the source of the
text, come in order from pieces that join to the text: literals that are not empty and never meet, and
bindings that hold the first closing mark nowhere after their first character. -/
theorem read?_pieces (delimiters : Option Delimiters) (text : String)
    (hclosing : (delimiters.getD .standard).closing ≠ "") :
    (read? delimiters text = none ↔
      ¬ ∃ a inside b, inside ≠ "" ∧ text = a ++ (delimiters.getD .standard).opening ++ inside ++
        (delimiters.getD .standard).closing ++ b) ∧
    ∀ tokens, read? delimiters text = some tokens →
      ∃ pieces : List Piece, tokens = pieces.map Piece.token ∧
        text = String.join (pieces.map (Piece.source (delimiters.getD .standard))) ∧
        (∀ p ∈ pieces, p.Fits (delimiters.getD .standard)) ∧
        pieces.IsChain (fun p q => ¬ (p.isLiteral ∧ q.isLiteral)) ∧
        Token.joinCode tokens = "+".intercalate (pieces.map Piece.code) := by
  generalize hd : delimiters.getD .standard = d at *
  have hclosing' : d.closing.toList ≠ [] := by simpa using hclosing
  simp only [read?, hd]
  constructor
  · rw [ite_eq_right_iff, isSome_iff_ne_none]
    simp only [reduceCtorEq, imp_false, not_not]
    constructor
    · rintro hnone ⟨a, inside, b, hinside, rfl⟩
      simp only [String.toList_append] at hnone
      exact next?_ne_none (by simpa using hinside) hnone
    · intro hnot
      rw [eq_none_iff_forall_ne_some]
      rintro ⟨before, inside, rest⟩ hnext
      obtain ⟨hs, hinside, -⟩ := next?_eq_some hclosing' hnext
      refine hnot ⟨String.ofList before, String.ofList inside, String.ofList rest, ?_, ?_⟩
      · simpa using hinside
      · rw [← String.toList_inj, hs]
        simp
  · intro tokens htokens
    split_ifs at htokens
    cases htokens
    obtain ⟨pieces, hpieces, htokens⟩ := exists_pieces d hclosing' text.toList
    refine ⟨pieces, htokens, ?_, hpieces.fits, hpieces.apart, ?_⟩
    · rw [← String.toList_inj, hpieces.source, String.toList_join, flatMap_map]
    · have hcode (p : Piece) : p.token.code = p.code := by cases p <;> rfl
      rw [htokens, Token.joinCode, List.map_map]
      exact congrArg _ (map_congr_left fun p _ => hcode p)

/-- A binding that starts with its own closing mark. -/
theorem read?_pieces_of_closing_inside :
    ")" ≠ "" ∧ ∃ pieces : List Piece, pieces.map Piece.token = [.literal "a", .binding ")"] ∧
      "a(())" = String.join (pieces.map (Piece.source ⟨"((", ")"⟩)) ∧
      ∀ p ∈ pieces, p.Fits ⟨"((", ")"⟩ := by
  have hclosing : ")" ≠ "" := by decide
  have hread : read? (some ⟨"((", ")"⟩) "a(())" = some [.literal "a", .binding ")"] := by
    decide +kernel
  obtain ⟨-, hpieces⟩ := read?_pieces (some ⟨"((", ")"⟩) "a(())" hclosing
  obtain ⟨pieces, htokens, hsource, hfits, -⟩ := hpieces _ hread
  exact ⟨hclosing, pieces, htokens.symm, hsource, hfits⟩

end Interpolation

end ViewTemplate

import ViewTemplate.Text.Fingerprint
import Mathlib.Logic.Function.Basic
import Mathlib.Tactic.Common

/-! # Fingerprints of texts that differ in one unit

For a fixed unit the step of a fingerprint permutes the 32-bit states, since 33 is odd and so has an
inverse modulo 2 ^ 32. For a fixed state it is injective in the unit. The difference that one unit
makes is therefore still there when the fold ends, however long the texts are.
-/

namespace ViewTemplate.Text

/-- Undoes the step of a unit; the factor is the inverse of 33. -/
def unmixUnit (unit h : UInt32) : UInt32 :=
  (h ^^^ unit) * 0x3E0F83E1

theorem unmixUnit_mixUnit (unit : UInt32) :
    Function.LeftInverse (unmixUnit unit) (mixUnit unit) := by
  intro h
  have hinverse : (33 : UInt32) * 0x3E0F83E1 = 1 := by decide
  rw [unmixUnit, mixUnit, UInt32.xor_assoc, UInt32.xor_self, UInt32.xor_zero, UInt32.mul_assoc,
    hinverse, UInt32.mul_one]

/-- Different states stay different through any further units. -/
theorem foldr_mixUnit_injective (units : List UInt32) :
    Function.Injective fun h => units.foldr mixUnit h := by
  induction units with
  | nil => exact Function.injective_id
  | cons unit units ih => exact (unmixUnit_mixUnit unit).injective.comp ih

/-- From one state, different units lead to different states. -/
theorem mixUnit_left_inj {u v : UInt32} (h : UInt32) : mixUnit u h = mixUnit v h ↔ u = v :=
  UInt32.xor_right_inj _

/-- The UTF-16 form of a text. -/
def utf16 (s : String) : List UInt32 := s.toList.flatMap utf16Units

/-- Sequences of one length that differ at exactly one place. -/
def DifferOnce (units others : List UInt32) : Prop :=
  units.length = others.length ∧ ∃! i : Nat, units[i]? ≠ others[i]?

theorem DifferOnce.exists_change {units others : List UInt32} (h : DifferOnce units others) :
    ∃ before u v after, u ≠ v ∧ units = before ++ u :: after ∧ others = before ++ v :: after := by
  obtain ⟨hlength, i, hi, honly⟩ := h
  have hlt : i < units.length := by
    by_contra hle
    rw [Nat.not_lt] at hle
    exact hi (by rw [List.getElem?_eq_none hle, List.getElem?_eq_none (hlength ▸ hle)])
  have hlt' : i < others.length := hlength ▸ hlt
  have hsame (j : Nat) (hj : j ≠ i) : units[j]? = others[j]? :=
    by_contra fun hne => hj (honly j hne)
  have hbefore : units.take i = others.take i := by
    ext1 j
    grind
  have hafter : units.drop (i + 1) = others.drop (i + 1) := by
    ext1 j
    grind
  refine ⟨units.take i, units[i], others[i], units.drop (i + 1), ?_, ?_, ?_⟩
  · simpa [hlt, hlt'] using hi
  · rw [List.getElem_cons_drop, List.take_append_drop]
  · rw [hbefore, hafter, List.getElem_cons_drop, List.take_append_drop]

/-- A change of a single unit changes the fingerprint. -/
theorem fingerprint_ne_of_differOnce {s t : String} (h : DifferOnce (utf16 s) (utf16 t)) :
    fingerprint s ≠ fingerprint t := by
  obtain ⟨before, u, v, after, huv, hs, ht⟩ := h.exists_change
  have hfold (r : String) : fingerprint r = (utf16 r).foldr mixUnit 5381 := rfl
  rw [hfold, hfold, hs, ht, List.foldr_append, List.foldr_append]
  intro heq
  exact huv ((mixUnit_left_inj _).mp (foldr_mixUnit_injective before heq))

/-- Two characters that share their first unit, between others. -/
theorem fingerprint_ne_of_second_unit :
    DifferOnce (utf16 "a😀b") (utf16 "a😁b") ∧ fingerprint "a😀b" ≠ fingerprint "a😁b" := by
  have honce : DifferOnce (utf16 "a😀b") (utf16 "a😁b") := by
    rw [show utf16 "a😀b" = [0x61, 0xD83D, 0xDE00, 0x62] by decide,
      show utf16 "a😁b" = [0x61, 0xD83D, 0xDE01, 0x62] by decide]
    refine ⟨rfl, 2, by decide, ?_⟩
    rintro (_ | _ | _ | _ | j) hj
    case succ.succ.zero => rfl
    all_goals exact absurd rfl hj
  exact ⟨honce, fingerprint_ne_of_differOnce honce⟩

end ViewTemplate.Text

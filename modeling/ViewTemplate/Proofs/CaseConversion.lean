import ViewTemplate.Proofs.RegisteredListeners
import ViewTemplate.Proofs.WrittenDirectives

/-! # Dashed and camel-case names of one property

A name without dashes that does not start with a capital comes back from its dashed form, and a dashed
name of lower-case words from its camel-case form. So a two-way binding listens to the same events in
both spellings of its property.
-/

open List

namespace ViewTemplate.Text

variable {c : Char} {s k : List Char}

/-! ## Single characters -/

/-- The lower-case letters. -/
def isAsciiLower (c : Char) : Bool := 'a' ≤ c && c ≤ 'z'

/-- Lower-case letters, digits and the underscore. -/
def isSmall (c : Char) : Bool := isAsciiWord c && !isAsciiUpper c

theorem toNat_lt_of_isAsciiWord (h : isAsciiWord c = true) : c.toNat < 128 := by
  simp only [isAsciiWord, isAsciiLetter, isAsciiDigit, Bool.or_eq_true, Bool.and_eq_true,
    decide_eq_true_eq, beq_iff_eq] at h
  rcases h with ((⟨-, h⟩ | ⟨-, h⟩) | ⟨-, h⟩) | rfl
  · exact Nat.lt_of_le_of_lt h (by decide)
  · exact Nat.lt_of_le_of_lt h (by decide)
  · exact Nat.lt_of_le_of_lt h (by decide)
  · decide

theorem isWord_of_isAsciiWord (h : isAsciiWord c = true) : isWord c = true := by
  rw [isWord, if_pos (toNat_lt_of_isAsciiWord h), h]

theorem ne_dash_of_isAsciiWord (h : isAsciiWord c = true) : c ≠ '-' := by
  rintro rfl
  exact absurd h (by decide)

theorem asciiLower_of_not_isAsciiUpper (h : isAsciiUpper c = false) : asciiLower c = c := by
  rw [asciiLower, h]
  rfl

/-- The small form of a capital is a word character, and the capital is its large form. -/
theorem upper_asciiLower (h : isAsciiUpper c = true) :
    isAsciiWord (asciiLower c) = true ∧ upper (asciiLower c) = [c] := by
  have hall : ∀ n < 91, isAsciiUpper (Char.ofNat n) = true →
      isAsciiWord (asciiLower (Char.ofNat n)) = true ∧
        upper (asciiLower (Char.ofNat n)) = [Char.ofNat n] := by decide
  have hlt : c.toNat < 91 := by
    simp only [isAsciiUpper, Bool.and_eq_true, decide_eq_true_eq] at h
    exact Nat.lt_succ_of_le h.2
  have hc := hall c.toNat hlt
  rw [Char.ofNat_toNat] at hc
  exact hc h

/-- The large form of a small letter is a capital, and the letter is its small form. -/
theorem exists_upper (h : isAsciiLower c = true) :
    isSmall c = true ∧
      ∃ d, upper c = [d] ∧ isAsciiUpper d = true ∧ isAsciiWord d = true ∧ asciiLower d = c := by
  have hall : ∀ n < 123, isAsciiLower (Char.ofNat n) = true →
      isSmall (Char.ofNat n) = true ∧ upper (Char.ofNat n) = [Char.ofNat (n - 32)] ∧
        isAsciiUpper (Char.ofNat (n - 32)) = true ∧ isAsciiWord (Char.ofNat (n - 32)) = true ∧
        asciiLower (Char.ofNat (n - 32)) = Char.ofNat n := by decide
  have hlt : c.toNat < 123 := by
    simp only [isAsciiLower, Bool.and_eq_true, decide_eq_true_eq] at h
    exact Nat.lt_succ_of_le h.2
  have hc := hall c.toNat hlt
  rw [Char.ofNat_toNat] at hc
  obtain ⟨hsmall, hupper⟩ := hc h
  exact ⟨hsmall, _, hupper⟩

/-! ## The two conversions -/

theorem lowerAfter_of_ascii (h : ∀ c ∈ s, c.toNat < 128) (before : List Char) :
    lowerAfter before s = s.map asciiLower := by
  induction s generalizing before with
  | nil => rfl
  | cons c s ih =>
    rw [forall_mem_cons] at h
    have hsigma : c.toNat ≠ 0x3A3 := by omega
    rw [lowerAfter, if_neg hsigma, lowerAlone, if_pos h.1, ih h.2]
    rfl

theorem mem_dashCapitals {inWord : Bool} (h : c ∈ dashCapitals inWord s) : c = '-' ∨ c ∈ s := by
  fun_induction dashCapitals inWord s with
  | case1 => exact .inr h
  | case2 inWord d s _ ih => grind
  | case3 inWord d s _ ih => grind

/-- In ASCII, each capital in a word becomes a dash and a small letter. -/
theorem hyphenateChars_eq_map (h : ∀ c ∈ s, c.toNat < 128) :
    hyphenateChars s = (dashCapitals false s).map asciiLower := by
  refine lowerAfter_of_ascii (fun c hc => ?_) []
  rcases mem_dashCapitals hc with rfl | hc
  · decide
  · exact h c hc

/-- Where there is no capital, there is nothing to separate. -/
theorem dashCapitals_of_no_capital (h : ∀ c ∈ s, isAsciiUpper c = false) (inWord : Bool) :
    (dashCapitals inWord s).map asciiLower = s := by
  induction s generalizing inWord with
  | nil => rfl
  | cons c s ih =>
    rw [forall_mem_cons] at h
    rw [dashCapitals, h.1, Bool.and_false, if_neg Bool.false_ne_true, map_cons,
      asciiLower_of_not_isAsciiUpper h.1, ih h.2]

theorem camelizeChars_cons_of_ne (h : c ≠ '-') (s : List Char) :
    camelizeChars (c :: s) = c :: camelizeChars s := by
  cases s with
  | nil => rfl
  | cons d s => rw [camelizeChars, if_neg (by simp [h])]

theorem camelizeChars_dash (h : isAsciiWord c = true) (s : List Char) :
    camelizeChars ('-' :: c :: s) = upper c ++ camelizeChars s := by
  rw [camelizeChars, if_pos (by simp [isWord_of_isAsciiWord h])]

theorem camelizeChars_of_isAsciiWord (h : ∀ c ∈ s, isAsciiWord c = true) : camelizeChars s = s := by
  induction s with
  | nil => rfl
  | cons c s ih =>
    rw [forall_mem_cons] at h
    rw [camelizeChars_cons_of_ne (ne_dash_of_isAsciiWord h.1), ih h.2]

/-- Camel case undoes the dashes, from wherever a word has got to. -/
theorem camelizeChars_map_dashCapitals (h : ∀ c ∈ s, isAsciiWord c = true) {inWord : Bool}
    (hstart : inWord = true ∨ ∀ c ∈ s.head?, isAsciiUpper c = false) :
    camelizeChars ((dashCapitals inWord s).map asciiLower) = s := by
  induction s generalizing inWord with
  | nil => rfl
  | cons c s ih =>
    rw [forall_mem_cons] at h
    have hrest := ih h.2 (.inl rfl)
    rw [dashCapitals, isWord_of_isAsciiWord h.1]
    split
    · rename_i hcapital
      rw [Bool.and_eq_true] at hcapital
      obtain ⟨hword, hupper⟩ := upper_asciiLower hcapital.2
      have hdash : asciiLower '-' = '-' := by decide
      rw [map_cons, map_cons, hdash, camelizeChars_dash hword, hupper, hrest]
      rfl
    · rename_i hsmall
      have hnot : isAsciiUpper c = false := by
        rcases hstart with rfl | hhead
        · simpa using hsmall
        · exact hhead c rfl
      rw [map_cons, asciiLower_of_not_isAsciiUpper hnot,
        camelizeChars_cons_of_ne (ne_dash_of_isAsciiWord h.1), hrest]

/-- A name of word characters that does not start with a capital. -/
structure IsCamelName (s : String) : Prop where
  word : ∀ c ∈ s.toList, isAsciiWord c = true
  head : ∀ c ∈ s.toList.head?, isAsciiUpper c = false

/-- A camel-case name comes back from its dashed form. -/
theorem camelize_of_hyphenate {s : String} (h : IsCamelName s) : camelize (hyphenate s) = s := by
  have hascii : ∀ c ∈ s.toList, c.toNat < 128 := fun c hc => toNat_lt_of_isAsciiWord (h.word c hc)
  rw [camelize, hyphenate, onChars, onChars, String.toList_ofList, hyphenateChars_eq_map hascii,
    camelizeChars_map_dashCapitals h.word (.inr h.head), String.ofList_toList]

/-! ## Dashed names -/

/-- A word of a dashed name: a lower-case letter, then lower-case letters, digits and underscores. -/
def isSegment : List Char → Bool
  | [] => false
  | c :: r => isAsciiLower c && r.all isSmall

/-- Words with dashes between them. -/
def IsDashedName (k : String) : Prop :=
  ∃ words : List String, (∀ w ∈ words, isSegment w.toList = true) ∧ k = "-".intercalate words

/-- A name, or the rest of one after a word character: its camel-case form is of word characters, and
the capitals that stand in a word are the letters after dashes. -/
structure Rejoins (inWord : Bool) (k : List Char) : Prop where
  word : ∀ c ∈ camelizeChars k, isAsciiWord c = true
  dashed : (dashCapitals inWord (camelizeChars k)).map asciiLower = k
  small : ∀ c ∈ k, c = '-' ∨ isSmall c = true

namespace Rejoins

variable {inWord : Bool}

theorem nil : Rejoins inWord [] := ⟨forall_mem_nil _, rfl, forall_mem_nil _⟩

theorem cons (hc : isSmall c = true) (h : Rejoins true k) : Rejoins inWord (c :: k) := by
  obtain ⟨hword, hupper⟩ := Bool.and_eq_true_iff.mp hc
  rw [Bool.not_eq_true'] at hupper
  have hcamel := camelizeChars_cons_of_ne (ne_dash_of_isAsciiWord hword) k
  refine ⟨?_, ?_, forall_mem_cons.mpr ⟨.inr hc, h.small⟩⟩
  · rw [hcamel]
    exact forall_mem_cons.mpr ⟨hword, h.word⟩
  · rw [hcamel, dashCapitals, hupper, Bool.and_false, if_neg Bool.false_ne_true,
      isWord_of_isAsciiWord hword, map_cons, asciiLower_of_not_isAsciiUpper hupper, h.dashed]

theorem dash (hc : isAsciiLower c = true) (h : Rejoins true k) : Rejoins true ('-' :: c :: k) := by
  obtain ⟨hsmall, d, hd, hupper, hword, hlower⟩ := exists_upper hc
  have hcamel : camelizeChars ('-' :: c :: k) = d :: camelizeChars k := by
    rw [camelizeChars_dash (Bool.and_eq_true_iff.mp hsmall).1, hd]
    rfl
  refine ⟨?_, ?_, forall_mem_cons.mpr ⟨.inl rfl, forall_mem_cons.mpr ⟨.inr hsmall, h.small⟩⟩⟩
  · rw [hcamel]
    exact forall_mem_cons.mpr ⟨hword, h.word⟩
  · have hdash : asciiLower '-' = '-' := by decide
    rw [hcamel, dashCapitals, hupper, Bool.and_self, if_pos rfl, isWord_of_isAsciiWord hword,
      map_cons, map_cons, hdash, hlower, h.dashed]

theorem append (h : Rejoins true k) (r : List Char) (hr : ∀ c ∈ r, isSmall c = true) :
    Rejoins true (r ++ k) := by
  induction r with
  | nil => exact h
  | cons c r ih =>
    rw [forall_mem_cons] at hr
    exact (ih hr.2).cons hr.1

theorem exists_of_isSegment {w : List Char} (h : isSegment w = true) :
    ∃ c r, w = c :: r ∧ isAsciiLower c = true ∧ ∀ d ∈ r, isSmall d = true := by
  cases w with
  | nil => cases h
  | cons c r =>
    rw [isSegment, Bool.and_eq_true, all_eq_true] at h
    exact ⟨c, r, rfl, h⟩

/-- The words after the first, each with its dash. -/
theorem words (words : List String) (h : ∀ w ∈ words, isSegment w.toList = true) :
    Rejoins true (words.flatMap fun w => '-' :: w.toList) := by
  induction words with
  | nil => exact nil
  | cons w words ih =>
    rw [forall_mem_cons] at h
    obtain ⟨c, r, hw, hc, hr⟩ := exists_of_isSegment h.1
    rw [flatMap_cons, hw]
    exact ((ih h.2).append r hr).dash hc

theorem toList_intercalate_dash (w : String) (words : List String) :
    ("-".intercalate (w :: words)).toList = w.toList ++ words.flatMap fun w => '-' :: w.toList := by
  rw [String.toList_intercalate]
  induction words generalizing w with
  | nil => simp
  | cons v words ih =>
    have hrest := ih v
    simp only [map_cons] at hrest ⊢
    rw [intercalate_cons_cons, hrest, flatMap_cons]
    simp

theorem of_isDashedName {k : String} (h : IsDashedName k) : Rejoins false k.toList := by
  obtain ⟨words, hwords, rfl⟩ := h
  cases words with
  | nil => exact nil
  | cons w words =>
    rw [forall_mem_cons] at hwords
    obtain ⟨c, r, hw, hc, hr⟩ := exists_of_isSegment hwords.1
    rw [toList_intercalate_dash, hw]
    exact ((Rejoins.words words hwords.2).append r hr).cons (exists_upper hc).1

variable {k : String} (h : Rejoins false k.toList)
include h

theorem hyphenate_camelize : hyphenate (camelize k) = k := by
  have hascii : ∀ c ∈ camelizeChars k.toList, c.toNat < 128 :=
    fun c hc => toNat_lt_of_isAsciiWord (h.word c hc)
  rw [camelize, hyphenate, onChars, onChars, String.toList_ofList, hyphenateChars_eq_map hascii,
    h.dashed, String.ofList_toList]

theorem camelize_camelize : camelize (camelize k) = camelize k := by
  rw [camelize, onChars, onChars, String.toList_ofList, camelizeChars_of_isAsciiWord h.word]

/-- A dashed name is its own dashed form. -/
theorem hyphenate_eq : hyphenate k = k := by
  have hsmall (c : Char) (hc : c ∈ k.toList) : c.toNat < 128 ∧ isAsciiUpper c = false := by
    rcases h.small c hc with rfl | hc
    · decide
    · obtain ⟨hword, hupper⟩ := Bool.and_eq_true_iff.mp hc
      exact ⟨toNat_lt_of_isAsciiWord hword, by simpa using hupper⟩
  rw [hyphenate, onChars, hyphenateChars_eq_map fun c hc => (hsmall c hc).1,
    dashCapitals_of_no_capital fun c hc => (hsmall c hc).2, String.ofList_toList]

theorem not_mem {c : Char} (hdash : c ≠ '-') (hsmall : isSmall c = false) : c ∉ k.toList := by
  intro hc
  rcases h.small c hc with hc | hc
  · exact hdash hc
  · rw [hsmall] at hc
    cases hc

theorem not_mem_camelize {c : Char} (hc : isAsciiWord c = false) : c ∉ (camelize k).toList := by
  intro hmem
  rw [camelize, onChars, String.toList_ofList] at hmem
  have hword := h.word c hmem
  rw [hc] at hword
  cases hword

end Rejoins

end ViewTemplate.Text

namespace ViewTemplate.Element

open Text

variable {name k : String}

/-! ## Two-way bindings -/

/-- The element with a two-way binding of a property. -/
def withSync (surroundings : Surroundings) (loopItems : List String) (a : Attribute)
    (el : Element) (name : String) : Element :=
  (el.classify surroundings loopItems { a with name := ":" ++ name ++ ".sync" }).value

theorem role_sync (hdot : '.' ∉ name.toList) (hbracket : ']' ∉ name.toList) :
    Spelling.role (":" ++ name ++ ".sync") =
      .binding name false (some (Modifiers.ofNames ["sync"])) := by
  have hsplit : Spelling.splitModifiers (name ++ ".sync") =
      (name, some (Modifiers.ofNames ["sync"])) := by
    have hplain : ∀ m ∈ ["sync"], Spelling.IsPlainPart m :=
      forall_mem_singleton.mpr ⟨by decide, by decide, by decide⟩
    have hwritten : ".sync" = String.ofList (Spelling.dotted ["sync"]) := by decide
    rw [hwritten, Spelling.splitModifiers_dotted hdot hbracket hplain]
    rfl
  rw [String.append_assoc, Spelling.role_binding (.inl rfl), hsplit,
    Spelling.argument_of_not_mem hbracket]

/-- What a two-way binding adds beside the bound value: listeners that write it back. -/
theorem events_withSync (surroundings : Surroundings) (loopItems : List String) (a : Attribute)
    (el : Element) (hdot : '.' ∉ name.toList) (hbracket : ']' ∉ name.toList) :
    let synced := { el with hasBindings := true }.addSync name (Filter.resolve a.value) false a.range
    (el.withSync surroundings loopItems a name).events = synced.events ∧
      (el.withSync surroundings loopItems a name).nativeEvents = synced.nativeEvents := by
  have hname : boundName name false (some (Modifiers.ofNames ["sync"])) = name := rfl
  have hsync : hasModifier (some (Modifiers.ofNames ["sync"])) "sync" = true := rfl
  simp only [withSync, classify, role_sync hdot hbracket, addBinding, hname, hsync, if_true]
  generalize addSync name _ false a.range _ = synced
  split <;> exact ⟨rfl, rfl⟩

/-- The names that listeners for updates are registered under. -/
theorem mem_keys_addSync (value : String) (range : Option Range) (el : Element) (e : String) :
    e ∈ (el.addSync name value false range).events.keys ↔
      e ∈ el.events.keys ∨ e ∈ updateEvents name false := by
  rw [addSync]
  induction updateEvents name false generalizing el with
  | nil => simp
  | cons event events ih =>
    rw [foldl_cons, ih]
    show e ∈ (Keyed.insert _ event _).keys ∨ _ ↔ _
    rw [Keyed.keys_insert]
    split <;> grind

theorem mem_updateEvents (h : Rejoins false k.toList) (e : String) :
    e ∈ updateEvents k false ↔ e = "update:" ++ camelize k ∨ e = "update:" ++ k := by
  simp only [updateEvents, h.hyphenate_eq, Bool.false_eq_true, if_false]
  split <;> grind

theorem updateEvents_camelize (h : Rejoins false k.toList) :
    updateEvents (camelize k) false = updateEvents k false := by
  simp only [updateEvents, h.camelize_camelize, h.hyphenate_camelize, h.hyphenate_eq,
    Bool.false_eq_true, if_false]

/-- Camel case and dashes undo each other on the names of properties, and a two-way binding has the
same listeners for updates in both spellings of its property. -/
theorem caseConversion_inverse :
    (∀ s, IsCamelName s → camelize (hyphenate s) = s) ∧
      ∀ k, IsDashedName k →
        hyphenate (camelize k) = k ∧ camelize (camelize k) = camelize k ∧
          ∀ surroundings loopItems a (el : Element),
            let dashed := el.withSync surroundings loopItems a k
            let camel := el.withSync surroundings loopItems a (camelize k)
            camel.events = dashed.events ∧ camel.nativeEvents = dashed.nativeEvents ∧
              ∀ e, e ∈ dashed.events.keys ↔
                e ∈ el.events.keys ∨ e = "update:" ++ camelize k ∨ e = "update:" ++ k := by
  refine ⟨fun s hs => camelize_of_hyphenate hs, fun k hk => ?_⟩
  have h := Rejoins.of_isDashedName hk
  refine ⟨h.hyphenate_camelize, h.camelize_camelize, fun surroundings loopItems a el => ?_⟩
  have hdashed := el.events_withSync surroundings loopItems a (h.not_mem (by decide) (by decide))
    (h.not_mem (by decide) (by decide))
  have hcamel := el.events_withSync surroundings loopItems a
    (h.not_mem_camelize (by decide)) (h.not_mem_camelize (by decide))
  simp only [addSync, updateEvents_camelize h] at hcamel
  refine ⟨hcamel.1.trans hdashed.1.symm, hcamel.2.trans hdashed.2.symm, fun e => ?_⟩
  rw [hdashed.1, mem_keys_addSync, mem_updateEvents h]

theorem caseConversion_inverse_fooBX2 :
    camelize (hyphenate "aB1_C") = "aB1_C" ∧ camelize "foo-b-x2" = "fooBX2" ∧
      hyphenate (camelize "foo-b-x2") = "foo-b-x2" := by
  have hcamel : IsCamelName "aB1_C" := by
    constructor <;> simp <;> decide
  refine ⟨caseConversion_inverse.1 "aB1_C" hcamel, by decide, ?_⟩
  exact (caseConversion_inverse.2 "foo-b-x2" ⟨["foo", "b", "x2"], by decide, by decide⟩).1

end ViewTemplate.Element

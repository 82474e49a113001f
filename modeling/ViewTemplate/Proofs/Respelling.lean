import Mathlib.Data.List.Forall2
import ViewTemplate.Proofs.LongSpelling

/-! # Start tags in two spellings

Two start tags that differ in the spelling of some names only. No element may have a name in both its
spellings; then each attribute of the one has its counterpart in the other, under the name that the
respelling gives it.
-/

open List Option

namespace ViewTemplate

open Spelling

namespace Keyed

variable {α : Type}

theorem mem_keys_of_contains {m : Keyed α} {key : String} (h : m.contains key = true) :
    key ∈ m.keys := by
  obtain ⟨value, hvalue⟩ := isSome_iff_exists.mp h
  obtain ⟨before, after, he, -⟩ := lookup_eq_some_iff.mp hvalue
  rw [keys, he]
  simp

/-- The key of each pair is found. -/
theorem contains_ofList {es : List (String × α)} {e : String × α} (he : e ∈ es) :
    (ofList es).contains e.1 = true := by
  have hfold (m : Keyed α) (hm : e ∈ es ∨ m.contains e.1 = true) :
      (es.foldl (fun m e => m.insert e.1 e.2) m).contains e.1 = true := by
    clear he
    induction es generalizing m with
    | nil => simpa using hm
    | cons f es ih =>
      refine ih _ ?_
      rw [contains, get?_insert]
      split
      · exact .inr rfl
      · rename_i hne
        rcases hm with hm | hm
        · rcases mem_cons.mp hm with rfl | hm
          · exact absurd rfl hne
          · exact .inl hm
        · exact .inr hm
  exact hfold {} (.inl he)

/-- Keys that are renamed, so that no other gets the new name of a key, keep its value. -/
theorem get?_ofList_map (f : String → String) (es : List (String × α)) (key : String)
    (hf : ∀ e ∈ es, f e.1 = f key → e.1 = key) :
    (ofList (es.map fun e => (f e.1, e.2))).get? (f key) = (ofList es).get? key := by
  have hfold (m m' : Keyed α) (hm : m'.get? (f key) = m.get? key) :
      ((es.map fun e => (f e.1, e.2)).foldl (fun m e => m.insert e.1 e.2) m').get? (f key) =
        (es.foldl (fun m e => m.insert e.1 e.2) m).get? key := by
    induction es generalizing m m' with
    | nil => exact hm
    | cons e es ih =>
      rw [forall_mem_cons] at hf
      refine ih hf.2 _ _ ?_
      rw [get?_insert, get?_insert, hm]
      by_cases heq : key = e.1
      · rw [if_pos heq, if_pos (congrArg f heq)]
      · rw [if_neg heq, if_neg fun hspell => heq (hf.1 hspell.symm).symm]
  exact hfold {} {} rfl

end Keyed

/-- What a start tag says: its tag, and the values of its attributes by name. -/
structure Opening where
  tag : String
  written : Keyed String

namespace Opening

def ofTag (tag : String) (attributes : List Attribute) : Opening where
  tag
  written := Keyed.ofList (attributes.map fun a => (a.name, a.value))

def value? (o : Opening) (name : String) : Option String := o.written.get? name

def has (o : Opening) (name : String) : Bool := (o.value? name).isSome

/-- Whether no name stands there in both its spellings. -/
def isUnmixed (o : Opening) : Bool :=
  o.written.keys.all fun name => (long? name).all fun long => !o.has long

/-- Whether a name is that of a two-way binding. -/
def isModel (name : String) : Bool :=
  match role name with
  | .directive name _ _ => name == "model"
  | _ => false

/-- Whether the tag is that of a check box or a radio button with a two-way binding. -/
def isChecked (o : Opening) : Bool :=
  o.tag == "input" && (o.value? "type" == some "checkbox" || o.value? "type" == some "radio") &&
    o.written.keys.any isModel

/-- Whether it makes a difference to an empty binding how its name is spelled: the short spelling is
passed over and the long one is taken. -/
def mindsSpelling (o : Opening) (name : String) : Bool :=
  name == ":class" || name == ":style" || o.tag == "slot" && name == ":name" ||
    (["key", "ref", "slot", "is"].any fun x => name == ":" ++ x && o.has x) ||
    o.isChecked && (name == ":value" || name == ":true-value" || name == ":false-value")

end Opening

/-- Two start tags, the second with the names of the first, some of them in their long spellings. -/
structure Respelling where
  spell : String → String
  first : Opening
  second : Opening
  tag : second.tag = first.tag
  each : ∀ name, spell name = name ∨ long? name = some (spell name)
  kept : ∀ name value, first.value? name = some value → second.value? (spell name) = some value
  covered : ∀ name, second.has name = true → ∃ short, first.has short = true ∧ spell short = name
  unmixed : first.isUnmixed = true
  unmixed_second : second.isUnmixed = true
  ignored : ∀ name, spell name ≠ name → first.value? name = some "" → first.mindsSpelling name = false

namespace Opening

theorem value?_of_not_has {o : Opening} {name : String} (h : ¬ o.has name = true) :
    o.value? name = none := by
  rwa [has, not_isSome_iff_eq_none] at h

theorem has_of_value? {o : Opening} {name value : String} (h : o.value? name = some value) :
    o.has name = true := by
  rw [has, h, isSome_some]

/-- A text of its own makes a binding mind how it is spelled. -/
theorem mindsSpelling_of_has {o : Opening} {x : String} (hx : x ∈ ["key", "ref", "slot", "is"])
    (h : o.has x = true) : o.mindsSpelling (":" ++ x) = true := by
  have hany : (["key", "ref", "slot", "is"].any fun y => ":" ++ x == ":" ++ y && o.has y) = true := by
    rw [List.any_eq_true]
    refine ⟨x, hx, ?_⟩
    rw [beq_self_eq_true, h, Bool.true_and]
  rw [mindsSpelling, hany, Bool.or_true, Bool.true_or]

theorem value?_of_long? {o : Opening} (h : o.isUnmixed = true) {name long : String}
    (hlong : long? name = some long) (hname : o.has name = true) : o.value? long = none := by
  rw [isUnmixed, List.all_eq_true] at h
  have hall := h name (Keyed.mem_keys_of_contains hname)
  rw [hlong, all_some, Bool.not_eq_true'] at hall
  exact value?_of_not_has (Bool.not_eq_true _ ▸ hall)

/-- A name spelled in one of its ways is one name only of a start tag that mixes no spellings. -/
theorem eq_of_spelled {o : Opening} (h : o.isUnmixed = true) {name other spelled : String}
    (hname : o.has name = true) (hother : o.has other = true)
    (hspelled : spelled = name ∨ long? name = some spelled)
    (hspelled' : spelled = other ∨ long? other = some spelled) : name = other := by
  rcases hspelled with rfl | hlong
  · rcases hspelled' with rfl | hlong'
    · rfl
    · rw [has, value?_of_long? h hlong' hother] at hname
      cases hname
  · rcases hspelled' with rfl | hlong'
    · rw [has, value?_of_long? h hlong hname] at hother
      cases hother
    · exact eq_of_long? hlong hlong'

end Opening

namespace Respelling

variable (r : Respelling)

theorem spell_of_long?_eq_none {name : String} (h : long? name = none) :
    r.spell name = name := by
  rcases r.each name with hsame | hlong
  · exact hsame
  · rw [h] at hlong
    cases hlong

/-- No two names of a start tag get the same spelling. -/
theorem injective {name other : String} (hname : r.first.has name = true)
    (hother : r.first.has other = true) (heq : r.spell name = r.spell other) : name = other := by
  refine Opening.eq_of_spelled r.unmixed hname hother (r.each name) ?_
  rw [heq]
  exact r.each other

/-- What is the long spelling of no name of the first start tag has the same value in both. -/
theorem value?_eq {name : String} (hnone : long? name = none)
    (hlong : ∀ short, r.first.has short = true → long? short ≠ some name) :
    r.second.value? name = r.first.value? name := by
  cases hvalue : r.first.value? name with
  | some value =>
    have hkept := r.kept name value hvalue
    rwa [r.spell_of_long?_eq_none hnone] at hkept
  | none =>
    apply Opening.value?_of_not_has
    intro hhas
    obtain ⟨short, hshort, hspell⟩ := r.covered name hhas
    rcases r.each short with hsame | hshortLong
    · rw [← hspell, hsame] at hvalue
      rw [Opening.has, hvalue] at hshort
      cases hshort
    · rw [hspell] at hshortLong
      exact hlong short hshort hshortLong

theorem spell_of_isFixed {name : String} (hname : isFixed name = true) :
    r.spell name = name :=
  r.spell_of_long?_eq_none (long?_of_isFixed hname)

theorem value?_of_isFixed {name : String} (hname : isFixed name = true) :
    r.second.value? name = r.first.value? name :=
  r.value?_eq (long?_of_isFixed hname) fun _ _ => long?_ne_of_isFixed hname

/-- The two values of a binding by its spellings are the same in both start tags, or the first has its
short and the second its long spelling. -/
theorem binding_cases {x : String} (hx : x ≠ "") :
    (r.second.value? (":" ++ x) = r.first.value? (":" ++ x) ∧
        r.second.value? ("v-bind:" ++ x) = r.first.value? ("v-bind:" ++ x) ∧
        (r.first.has (":" ++ x) = true → r.spell (":" ++ x) = ":" ++ x)) ∨
      ∃ value, r.first.value? (":" ++ x) = some value ∧ r.first.value? ("v-bind:" ++ x) = none ∧
        r.second.value? (":" ++ x) = none ∧ r.second.value? ("v-bind:" ++ x) = some value ∧
        r.spell (":" ++ x) = "v-bind:" ++ x := by
  have hlong : long? (":" ++ x) = some ("v-bind:" ++ x) := long?_append .binding hx
  have hlongless := long?_of_long? hlong
  cases hvalue : r.first.value? (":" ++ x) with
  | some value =>
    have hnone := Opening.value?_of_long? r.unmixed hlong (Opening.has_of_value? hvalue)
    have hkept := r.kept _ value hvalue
    rcases r.each (":" ++ x) with hsame | hspell
    · rw [hsame] at hkept
      have hnone' := Opening.value?_of_long? r.unmixed_second hlong (Opening.has_of_value? hkept)
      exact .inl ⟨hkept, hnone'.trans hnone.symm, fun _ => hsame⟩
    · rw [hlong, some_inj] at hspell
      rw [← hspell] at hkept
      refine .inr ⟨value, rfl, hnone, Opening.value?_of_not_has fun hhas => ?_, hkept, hspell.symm⟩
      rw [Opening.value?_of_long? r.unmixed_second hlong hhas] at hkept
      cases hkept
  | none =>
    have hnot : ¬ r.first.has (":" ++ x) = true := by
      rw [Opening.has, hvalue]
      decide
    refine .inl ⟨Opening.value?_of_not_has fun hhas => ?_, ?_, fun hhas => absurd hhas hnot⟩
    · obtain ⟨short, hshort, hspell⟩ := r.covered _ hhas
      rcases r.each short with hsame | hshortLong
      · rw [hsame] at hspell
        rw [hspell] at hshort
        exact hnot hshort
      · rw [hspell] at hshortLong
        obtain ⟨mark, word, y, hmark, -, -, heq⟩ := long?_eq_some_iff.mp hshortLong
        exact IsMark.binding.append_ne hmark heq
    · refine r.value?_eq hlongless fun short hshort hshortLong => ?_
      rw [eq_of_long? hshortLong hlong] at hshort
      exact hnot hshort

end Respelling

theorem exists_mem_of_forall₂ {α β : Type} {R : α → β → Prop} {l : List α} {l' : List β}
    (h : Forall₂ R l l') {a : α} (ha : a ∈ l) : ∃ b ∈ l', R a b := by
  induction h with
  | nil => cases ha
  | @cons x b l l' hxb _ ih =>
    rcases mem_cons.mp ha with rfl | ha
    · exact ⟨b, mem_cons_self, hxb⟩
    · obtain ⟨b', hb', hab'⟩ := ih ha
      exact ⟨b', mem_cons_of_mem b hb', hab'⟩

/-- The attributes of two start tags correspond in their order. Those of the first that are said to be
rewritten have their long spellings in the second. -/
structure RespelledAttributes (rewritten : Attribute → Bool) (tag : String) (l l' : List Attribute) :
    Prop where
  each : Forall₂ (fun a a' => a'.value = a.value ∧
    (if rewritten a then long? a.name = some a'.name else a'.name = a.name)) l l'
  unmixed : (Opening.ofTag tag l).isUnmixed = true
  unmixed_second : (Opening.ofTag tag l').isUnmixed = true
  ignored : ∀ a ∈ l, rewritten a = true → (Opening.ofTag tag l).value? a.name = some "" →
    (Opening.ofTag tag l).mindsSpelling a.name = false
  slots : ∀ a ∈ (l.filter fun a => isSlot a.name).drop 1, rewritten a = false

namespace RespelledAttributes

variable {rewritten : Attribute → Bool} {tag : String} {l l' : List Attribute}

/-- The spelling that a name has in the second of two start tags. -/
def spelling (tag : String) (l l' : List Attribute) (name : String) : String :=
  match long? name with
  | some long =>
    if (Opening.ofTag tag l).has name && (Opening.ofTag tag l').has long then long else name
  | none => name

theorem has_of_mem (tag : String) {a : Attribute} (ha : a ∈ l) : (Opening.ofTag tag l).has a.name = true :=
  Keyed.contains_ofList (List.mem_map_of_mem (f := fun a : Attribute => (a.name, a.value)) ha)

theorem exists_of_has {name : String} (h : (Opening.ofTag tag l).has name = true) :
    ∃ a ∈ l, a.name = name := by
  by_contra hnone
  push Not at hnone
  have hget : (Opening.ofTag tag l).value? name = none := by
    apply Keyed.get?_ofList_eq_none
    rintro e he
    obtain ⟨a, ha, rfl⟩ := List.mem_map.mp he
    exact hnone a ha
  rw [Opening.has, hget] at h
  cases h

theorem spelling_cases (tag : String) (l l' : List Attribute) (name : String) :
    spelling tag l l' name = name ∨ long? name = some (spelling tag l l' name) := by
  rw [spelling]
  split
  · rename_i long hlong
    split
    · exact .inr hlong
    · exact .inl rfl
  · exact .inl rfl

section

variable (h : RespelledAttributes rewritten tag l l')
include h

/-- A name that the second start tag has too is not respelled. -/
theorem spelling_of_has {name : String} (hname : (Opening.ofTag tag l').has name = true) :
    spelling tag l l' name = name := by
  rw [spelling]
  split
  · rename_i long hlong
    have hnone : (Opening.ofTag tag l').has long = false := by
      rw [Opening.has, Opening.value?_of_long? h.unmixed_second hlong hname, isSome_none]
    rw [hnone, Bool.and_false]
    rfl
  · rfl

theorem spelling_of_not_rewritten {a : Attribute} (ha : a ∈ l) (hkept : rewritten a = false) :
    spelling tag l l' a.name = a.name := by
  obtain ⟨a', ha', -, hname⟩ := exists_mem_of_forall₂ h.each ha
  rw [hkept] at hname
  exact h.spelling_of_has (hname ▸ has_of_mem tag ha')

/-- The name of a counterpart is the one that the respelling gives. -/
theorem spelled :
    Forall₂ (fun a a' => a'.name = spelling tag l l' a.name ∧ a'.value = a.value) l l' := by
  have hfirst := (forall₂_and_left _ _).mpr ⟨fun a ha => has_of_mem tag ha, h.each⟩
  have hboth := (forall₂_and_left _ _).mpr ⟨fun a ha => has_of_mem tag ha, hfirst.flip⟩
  refine hboth.flip.imp ?_
  rintro a a' ⟨hhas', hhas, hvalue, hname⟩
  refine ⟨?_, hvalue⟩
  split at hname
  · simp only [spelling, hname, hhas, hhas', Bool.and_self, if_true]
  · rw [hname] at hhas' ⊢
    exact (h.spelling_of_has hhas').symm

/-- The attributes of the second start tag, by what the first one says. -/
theorem map_eq :
    l'.map (fun a => (a.name, a.value)) =
      (l.map fun a => (a.name, a.value)).map fun e => (spelling tag l l' e.1, e.2) := by
  rw [List.map_map, ← forall₂_eq_eq_eq, forall₂_map_left_iff, forall₂_map_right_iff]
  refine h.spelled.flip.imp ?_
  rintro a' a ⟨hname, hvalue⟩
  rw [hname, hvalue]
  rfl

end

/-- The respelling of two start tags whose attributes correspond. -/
def respelling (h : RespelledAttributes rewritten tag l l') : Respelling where
  spell := spelling tag l l'
  first := Opening.ofTag tag l
  second := Opening.ofTag tag l'
  tag := rfl
  each := spelling_cases tag l l'
  kept name value hvalue := by
    have hget := Keyed.get?_ofList_map (spelling tag l l') (l.map fun a => (a.name, a.value)) name ?_
    · rw [← h.map_eq] at hget
      exact hget.trans hvalue
    · rintro e he hspell
      obtain ⟨a, ha, rfl⟩ := List.mem_map.mp he
      refine Opening.eq_of_spelled h.unmixed (has_of_mem tag ha) (Opening.has_of_value? hvalue)
        (spelling_cases tag l l' a.name) ?_
      dsimp only at hspell
      rw [hspell]
      exact spelling_cases tag l l' name
  covered name hname := by
    obtain ⟨a', ha', rfl⟩ := exists_of_has hname
    have hmem : (a'.name, a'.value) ∈ l'.map fun a => (a.name, a.value) := List.mem_map_of_mem ha'
    rw [h.map_eq, List.map_map, List.mem_map] at hmem
    obtain ⟨a, ha, heq⟩ := hmem
    exact ⟨a.name, has_of_mem tag ha, congrArg Prod.fst heq⟩
  unmixed := h.unmixed
  unmixed_second := h.unmixed_second
  ignored name hspell hvalue := by
    obtain ⟨a, ha, rfl⟩ := exists_of_has (Opening.has_of_value? hvalue)
    refine h.ignored a ha ?_ hvalue
    by_contra hkept
    exact hspell (h.spelling_of_not_rewritten ha (Bool.eq_false_iff.mpr hkept))

end RespelledAttributes

end ViewTemplate

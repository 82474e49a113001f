import ViewTemplate.Proofs.ElementFrame
import ViewTemplate.Proofs.Respelling
import ViewTemplate.Proofs.ShownElement
import ViewTemplate.Proofs.UnmarkedTree

/-! # Elements in two spellings

Two elements whose start tags differ in the spelling of some names only. Every reading takes the same
from both, as long as it makes no difference to an empty binding how its name is spelled, and leaves
them such elements again.
-/

open List

namespace ViewTemplate

open Reported Spelling

variable {α β : Type}

/-- Two runs whose steps keep a relation between their states. -/
theorem Reported.foldlM_relates {σ τ : Type} {R : σ → τ → Prop} {f : σ → α → Reported σ}
    {g : τ → β → Reported τ} {l : List α} {l' : List β}
    (h : Forall₂ (fun a b => ∀ s t, R s t → R (f s a).value (g t b).value) l l') {s : σ}
    {t : τ} (hst : R s t) : R (l.foldlM f s).value (l'.foldlM g t).value := by
  induction h generalizing s t with
  | nil => exact hst
  | cons hab _ ih =>
    rw [foldlM_cons, foldlM_cons, value_bind, value_bind]
    exact ih (hab s t hst)

/-- Members that correspond stay such when the first ones that pass corresponding tests are erased. -/
theorem forall₂_eraseP {R : α → β → Prop} {p : α → Bool} {q : β → Bool} {l : List α} {l' : List β}
    (h : Forall₂ R l l') (hpq : ∀ a ∈ l, ∀ b, R a b → q b = p a) :
    Forall₂ R (l.eraseP p) (l'.eraseP q) := by
  induction h with
  | nil => exact .nil
  | @cons a b l l' hab _ ih =>
    rw [forall_mem_cons] at hpq
    rw [eraseP_cons, eraseP_cons, hpq.1 b hab]
    cases p a with
    | true => assumption
    | false => exact .cons hab (ih hpq.2)

theorem filter_eraseP {p q : α → Bool} (h : ∀ a, p a = true → q a = false) (l : List α) :
    (l.eraseP p).filter q = l.filter q := by
  induction l with
  | nil => rfl
  | cons a l ih =>
    rw [eraseP_cons]
    cases hp : p a with
    | true => simp [h a hp]
    | false => simp only [cond_false, filter_cons, ih]

theorem filter_eraseP_self (p : α → Bool) (l : List α) :
    (l.eraseP p).filter p = (l.filter p).tail := by
  induction l with
  | nil => rfl
  | cons a l ih =>
    rw [eraseP_cons, filter_cons]
    cases hp : p a with
    | true => rfl
    | false => simpa [hp] using ih

/-- Of members that correspond, the first ones that pass corresponding tests do. -/
theorem forall₂_find? {R : α → β → Prop} {p : α → Bool} {q : β → Bool} {l : List α} {l' : List β}
    (h : Forall₂ R l l') (hpq : ∀ a b, R a b → q b = p a) :
    l.find? p = none ∧ l'.find? q = none ∨
      ∃ a b, l.find? p = some a ∧ l'.find? q = some b ∧ R a b := by
  induction h with
  | nil => exact .inl ⟨rfl, rfl⟩
  | @cons a b l l' hab _ ih =>
    rw [find?_cons, find?_cons, hpq a b hab]
    cases p a with
    | true => exact .inr ⟨a, b, rfl, rfl, hab⟩
    | false => exact ih

namespace Element

variable {r : Respelling} {n : Nat} {e e' : Element}

def opening (el : Element) : Opening := ⟨el.tag, el.written⟩

/-- What the readings of an element are about: its start tag, the attributes that are left, and the
directives found. -/
structure Core where
  opening : Opening
  pending : List Attribute
  directives : List Directive

def core (el : Element) : Core := ⟨el.opening, el.pending, el.directives⟩

/-- A change that goes through to what an element shows, and leaves its attributes alone. -/
def PassesShown (f : Element → Element) : Prop :=
  ∀ el, ((f el).shown, (f el).core) = (f el.shown, el.core)

/-- The element with the first attribute of a name taken off the pending ones. -/
def without (el : Element) (name : String) : Element :=
  { el with pending := el.pending.eraseP fun a => a.name == name }

theorem take_of_some {el : Element} {name value : String} (h : el.attribute? name = some value) :
    el.take name = (some value, el.without name) := by
  rw [take, h]
  rfl

/-- Two elements of the two start tags show the same, and have the same attributes left in the same
order. Of the slot directives that are left only the first ones, as many as the number says, may be
respelled. -/
structure Respelled (r : Respelling) (n : Nat) (e e' : Element) : Prop where
  shown : e'.shown = e.shown
  opening : e.opening = r.first
  opening_second : e'.opening = r.second
  pending : Forall₂ (fun a a' => a'.name = r.spell a.name ∧ a'.value = a.value) e.pending e'.pending
  listed : ∀ a ∈ e.pending, r.first.has a.name = true
  slots : ∀ a ∈ (e.pending.filter fun a => isSlot a.name).drop n, r.spell a.name = a.name
  models : ∀ d ∈ e.directives, d.name = "model" → r.first.written.keys.any Opening.isModel = true

namespace Respelled

variable {a a' : Attribute} {name x : String}

section

variable (h : e.Respelled r n e')
include h

/-- Elements with the attributes and directives of two such elements that show the same. -/
theorem of_core {d d' : Element} (hshown : d'.shown = d.shown) (hcore : d.core = e.core)
    (hcore' : d'.core = e'.core) : d.Respelled r n d' := by
  have hpending : d.pending = e.pending := congrArg Core.pending hcore
  refine ⟨hshown, ?_, ?_, ?_, ?_, ?_, ?_⟩
  · exact (congrArg Core.opening hcore).trans h.opening
  · exact (congrArg Core.opening hcore').trans h.opening_second
  · rw [hpending, show d'.pending = e'.pending from congrArg Core.pending hcore']
    exact h.pending
  · rw [hpending]
    exact h.listed
  · rw [hpending]
    exact h.slots
  · rw [show d.directives = e.directives from congrArg Core.directives hcore]
    exact h.models

theorem change (f : Element → Element) (hf : PassesShown f) : (f e).Respelled r n (f e') := by
  obtain ⟨hshown, hcore⟩ := Prod.mk.inj (hf e)
  obtain ⟨hshown', hcore'⟩ := Prod.mk.inj (hf e')
  exact h.of_core (by rw [hshown', hshown, h.shown]) hcore hcore'

/-- What can be read from what an element shows is the same for both. -/
theorem read {α : Type} (f : Element → α) (hf : ∀ el, f el.shown = f el) : f e' = f e := by
  rw [← hf e', h.shown, hf]

theorem attribute?_eq (name : String) : e.attribute? name = r.first.value? name := by
  rw [← h.opening]
  rfl

theorem attribute?_second (name : String) : e'.attribute? name = r.second.value? name := by
  rw [← h.opening_second]
  rfl

theorem tag_eq : e.tag = r.first.tag := congrArg Opening.tag h.opening

theorem tag : e'.tag = e.tag :=
  calc e'.tag = r.second.tag := congrArg Opening.tag h.opening_second
    _ = r.first.tag := r.tag
    _ = e.tag := h.tag_eq.symm

theorem attribute?_fixed (hname : isFixed name = true) :
    e'.attribute? name = e.attribute? name := by
  rw [h.attribute?_eq, h.attribute?_second, r.value?_of_isFixed hname]

theorem erase (hname : r.first.has name = true) (hslot : isSlot name = false) :
    (e.without name).Respelled r n (e'.without (r.spell name)) where
  shown := h.shown
  opening := h.opening
  opening_second := h.opening_second
  pending := by
    apply forall₂_eraseP h.pending
    rintro a ha a' ⟨hspell, -⟩
    rw [hspell, Bool.eq_iff_iff, beq_iff_eq, beq_iff_eq]
    constructor
    · exact r.injective (h.listed a ha) hname
    · rintro rfl
      rfl
  listed a ha := h.listed a (mem_of_mem_eraseP ha)
  slots := by
    have hfilter := filter_eraseP (p := fun a : Attribute => a.name == name)
      (q := fun a : Attribute => isSlot a.name)
      (fun a ha => by rw [beq_iff_eq.mp ha, hslot]) e.pending
    rw [without, hfilter]
    exact h.slots
  models := h.models

/-- Taking an attribute that both have in the same spelling. -/
theorem take_same (hvalue : r.second.value? name = r.first.value? name)
    (hspell : r.first.has name = true → r.spell name = name) (hslot : isSlot name = false) :
    (e.take name).1 = r.first.value? name ∧ (e'.take name).1 = r.first.value? name ∧
      (e.take name).2.Respelled r n (e'.take name).2 := by
  have hfirst := h.attribute?_eq name
  have hsecond := (h.attribute?_second name).trans hvalue
  cases hattribute : r.first.value? name with
  | none =>
    rw [hattribute] at hfirst hsecond
    rw [take_of_none hfirst, take_of_none hsecond]
    exact ⟨rfl, rfl, h⟩
  | some value =>
    have hhas := Opening.has_of_value? hattribute
    have herase := h.erase hhas hslot
    rw [hspell hhas] at herase
    rw [hattribute] at hfirst hsecond
    rw [take_of_some hfirst, take_of_some hsecond]
    exact ⟨rfl, rfl, herase⟩

theorem take_fixed (name : String) (hname : isFixed name = true) :
    (e'.take name).1 = (e.take name).1 ∧ (e.take name).2.Respelled r n (e'.take name).2 := by
  obtain ⟨hvalue, hvalue', hrest⟩ := h.take_same (r.value?_of_isFixed hname)
    (fun _ => r.spell_of_isFixed hname) (isSlot_of_isFixed hname)
  exact ⟨hvalue'.trans hvalue.symm, hrest⟩

/-- Taking a binding. The results differ only if a short spelling is passed over because it is empty. -/
theorem takeBinding (hx : x ≠ "") :
    (e.takeBinding x).2.Respelled r n (e'.takeBinding x).2 ∧
      ((e'.takeBinding x).1 = (e.takeBinding x).1 ∨
        (e.takeBinding x).1 = none ∧ (e'.takeBinding x).1 = some "" ∧
          r.first.mindsSpelling (":" ++ x) = false) := by
  have hslot : isSlot (":" ++ x) = false := isSlot_append (.inl rfl) x
  have hlong := long?_append .binding hx
  rcases r.binding_cases hx with ⟨hshort, hlongValue, hspell⟩ |
    ⟨value, hvalue, hnone, hnone', hvalue', hspell⟩
  · -- Both have the binding in the same spelling.
    obtain ⟨htaken, htaken', hrest⟩ := h.take_same hshort hspell hslot
    obtain ⟨hlast, hlast', hfinal⟩ := hrest.take_same hlongValue
      (fun _ => r.spell_of_long?_eq_none (long?_of_long? hlong))
      (isSlot_append (.inr (.inl rfl)) x)
    simp only [Element.takeBinding, htaken, htaken', hlast, hlast']
    split
    · exact ⟨hrest, .inl trivial⟩
    · exact ⟨hfinal, .inl trivial⟩
  · -- The short spelling of the first is a long one in the second.
    have hrest := h.erase (Opening.has_of_value? hvalue) hslot
    rw [hspell] at hrest
    have htaken := take_of_some ((h.attribute?_eq _).trans hvalue)
    have htaken' := take_of_none ((h.attribute?_second _).trans hnone')
    have hlast := take_of_none ((hrest.attribute?_eq _).trans hnone)
    have hlast' := take_of_some ((h.attribute?_second _).trans hvalue')
    simp only [Element.takeBinding, htaken, htaken', hlast, hlast']
    by_cases hempty : value = ""
    · subst hempty
      have hne : r.spell (":" ++ x) ≠ ":" ++ x := by
        rw [hspell]
        exact (IsMark.binding.append_ne .binding).symm
      have hresolve : Filter.resolve "" = "" := by decide
      exact ⟨hrest, .inr ⟨rfl, congrArg some hresolve, r.ignored _ hne hvalue⟩⟩
    · simp only [Option.filter_some, Option.filter_none, hempty, ne_eq, not_false_eq_true, decide_true,
        if_true]
      exact ⟨hrest, .inl rfl⟩

/-- Taking a binding or else a text. The results differ only if a short spelling is passed over because
it is empty, and there is no text. -/
theorem takeBindingOrText (hx : isFixed x = true) (hempty : x ≠ "")
    (hminds : r.first.has x = true → r.first.mindsSpelling (":" ++ x) = true) :
    (e.takeBindingOrText x).2.Respelled r n (e'.takeBindingOrText x).2 ∧
      ((e'.takeBindingOrText x).1 = (e.takeBindingOrText x).1 ∨
        (e.takeBindingOrText x).1 = none ∧ (e'.takeBindingOrText x).1 = some "" ∧
          r.first.mindsSpelling (":" ++ x) = false) := by
  obtain ⟨hrest, hresult⟩ := h.takeBinding hempty
  obtain ⟨hvalue, hlast⟩ := hrest.take_fixed x hx
  rcases hresult with hsame | ⟨hnone, hsome, hnot⟩
  · simp only [Element.takeBindingOrText, hsame, hvalue]
    split
    · exact ⟨hrest, .inl trivial⟩
    · exact ⟨hlast, .inl trivial⟩
  · have htext : r.first.value? x = none := Opening.value?_of_not_has fun hhas => by
      rw [hminds hhas] at hnot
      cases hnot
    simp only [Element.takeBindingOrText, hnone, hsome,
      take_of_none ((hrest.attribute?_eq x).trans htext)]
    exact ⟨hrest, .inr ⟨rfl, rfl, hnot⟩⟩

/-- Where a text of its own makes a binding mind how it is spelled, an empty result counts as none. -/
theorem takeBindingOrText_filter (x : String) (hx : x ∈ ["key", "ref", "slot", "is"]) :
    (e'.takeBindingOrText x).1.filter (· ≠ "") = (e.takeBindingOrText x).1.filter (· ≠ "") ∧
      (e.takeBindingOrText x).2.Respelled r n (e'.takeBindingOrText x).2 := by
  have hfixed : ∀ y ∈ ["key", "ref", "slot", "is"], isFixed y = true ∧ y ≠ "" := by
    decide
  obtain ⟨hrest, hresult⟩ :=
    h.takeBindingOrText (hfixed x hx).1 (hfixed x hx).2 (Opening.mindsSpelling_of_has hx)
  refine ⟨?_, hrest⟩
  rcases hresult with hsame | ⟨hnone, hsome, -⟩
  · rw [hsame]
  · rw [hnone, hsome]
    rfl

theorem takeBindingOrText_eq (hx : isFixed x = true) (hempty : x ≠ "")
    (hminds : r.first.mindsSpelling (":" ++ x) = true) :
    (e'.takeBindingOrText x).1 = (e.takeBindingOrText x).1 ∧
      (e.takeBindingOrText x).2.Respelled r n (e'.takeBindingOrText x).2 := by
  obtain ⟨hrest, hsame | ⟨-, -, hnot⟩⟩ := h.takeBindingOrText hx hempty fun _ => hminds
  · exact ⟨hsame, hrest⟩
  · rw [hminds] at hnot
    cases hnot

/-- What is noted of an attribute is the same for both. -/
theorem note_fixed (name : String) (hname : isFixed name = true)
    (note : Option String → Element → Element) (hnote : ∀ value, PassesShown (note value)) :
    (note (e.take name).1 (e.take name).2).Respelled r n
      (note (e'.take name).1 (e'.take name).2) := by
  obtain ⟨hvalue, hrest⟩ := h.take_fixed name hname
  rw [hvalue]
  exact hrest.change _ (hnote _)

theorem note_named (x : String) (hx : x ∈ ["key", "ref", "slot", "is"])
    (note : Option String → Element → Element) (hnote : ∀ value, PassesShown (note value)) :
    (note ((e.takeBindingOrText x).1.filter (· ≠ "")) (e.takeBindingOrText x).2).Respelled r n
      (note ((e'.takeBindingOrText x).1.filter (· ≠ "")) (e'.takeBindingOrText x).2) := by
  obtain ⟨hvalue, hrest⟩ := h.takeBindingOrText_filter x hx
  rw [hvalue]
  exact hrest.change _ (hnote _)

end

/-! ## Readings at the start tag -/

section

variable (h : e.Respelled r n e')
include h

theorem readLoop : e.readLoop.value.Respelled r n e'.readLoop.value :=
  h.note_fixed "v-for" rfl
    (fun clause el => { el with loop := ((clause.filter (· ≠ "")).bind Loop.read?).or el.loop })
    fun _ _ => rfl

theorem readBranch : e.readBranch.Respelled r n e'.readBranch := by
  have hlast := h.note_fixed "v-else" rfl (fun last el => { el with isElse := last.isSome })
    fun _ _ => rfl
  exact hlast.note_fixed "v-else-if" rfl
    (fun guard el => { el with elseIf := guard.filter (· ≠ "") }) fun _ _ => rfl

theorem readChoice : e.readChoice.Respelled r n e'.readChoice := by
  obtain ⟨hvalue, hrest⟩ := h.take_fixed "v-if" rfl
  simp only [Element.readChoice, hvalue]
  split
  · exact hrest.change (fun el => { el with choice := some _ }) fun _ => rfl
  · exact hrest.readBranch

theorem readOnce : e.readOnce.Respelled r n e'.readOnce :=
  h.note_fixed "v-once" rfl (fun mark el => { el with once := mark.isSome || el.once }) fun _ _ => rfl

theorem readStructure : e.readStructure.value.Respelled r n e'.readStructure.value :=
  h.readLoop.readChoice.readOnce

end

/-! ## Readings of a closing element -/

section

variable (h : e.Respelled r n e')
include h

theorem readKey (parentTag parentTag' : Option String) :
    (e.readKey parentTag).value.Respelled r n (e'.readKey parentTag').value :=
  h.note_named "key" (by simp) (fun key el => { el with key := key.or el.key }) fun _ _ => rfl

theorem markPlain : e.markPlain.Respelled r n e'.markPlain := by
  have hpending : e'.pending.isEmpty = e.pending.isEmpty := by
    rw [Bool.eq_iff_iff, isEmpty_iff_length_eq_zero, isEmpty_iff_length_eq_zero,
      h.pending.length_eq]
  have hplain : (e'.key.isNone && e'.scopedSlots.isEmpty && e'.pending.isEmpty) =
      (e.key.isNone && e.scopedSlots.isEmpty && e.pending.isEmpty) := by
    rw [h.read Element.key fun _ => rfl, h.read Element.scopedSlots fun _ => rfl, hpending]
  rw [Element.markPlain, Element.markPlain, hplain]
  exact h.change (fun el => { el with plain := _ }) fun _ => rfl

theorem readRef (inLoop : Bool) : (e.readRef inLoop).Respelled r n (e'.readRef inLoop) :=
  h.note_named "ref" (by simp) (fun ref el =>
    { el with ref := ref.or el.ref, refInLoop := if ref.isSome then inLoop else el.refInLoop })
    fun _ _ => rfl

theorem readScope : e.readScope.value.Respelled r n e'.readScope.value := by
  rw [Element.readScope, Element.readScope, h.tag]
  split
  · obtain ⟨hvalue, hrest⟩ := h.take_fixed "scope" rfl
    obtain ⟨hscope, hlast⟩ := hrest.take_fixed "slot-scope" rfl
    simp only [readTemplateScope, value_bind, value_pure, hvalue, hscope]
    split
    · exact hrest.change (fun el => { el with slotScope := _ }) fun _ => rfl
    · exact hlast.change (fun el => { el with slotScope := _ }) fun _ => rfl
  · exact h.note_fixed "slot-scope" rfl (fun scope el =>
      { el with slotScope := if scope.isSome then scope.filter (· ≠ "") else el.slotScope })
      fun _ _ => rfl

theorem addAttribute (name value : String) (range range' : Option Range) (dynamic : Bool) :
    (e.addAttribute name value range dynamic).Respelled r n
      (e'.addAttribute name value range' dynamic) := by
  apply h.of_core
  · rw [shown_addAttribute, shown_addAttribute, h.shown]
  · rfl
  · rfl

theorem addProperty (name value : String) (range range' : Option Range) (dynamic : Bool) :
    (e.addProperty name value range dynamic).Respelled r n
      (e'.addProperty name value range' dynamic) := by
  apply h.of_core
  · rw [shown_addProperty, shown_addProperty, h.shown]
  · rfl
  · rfl

theorem addListener {l l' : Listener} (hl : l'.unplaced = l.unplaced) :
    (e.addListener l).Respelled r n (e'.addListener l') := by
  apply h.of_core
  · rw [shown_addListener, shown_addListener, h.shown, hl]
  · rfl
  · rfl

/-- Whether there is a binding of a name, in whichever spelling. -/
theorem hasBinding (x : String) (hx : x ≠ "") :
    (e'.hasAttribute (":" ++ x) || e'.hasAttribute ("v-bind:" ++ x)) =
      (e.hasAttribute (":" ++ x) || e.hasAttribute ("v-bind:" ++ x)) := by
  show ((e'.attribute? (":" ++ x)).isSome || (e'.attribute? ("v-bind:" ++ x)).isSome) =
    ((e.attribute? (":" ++ x)).isSome || (e.attribute? ("v-bind:" ++ x)).isSome)
  rw [h.attribute?_eq, h.attribute?_eq, h.attribute?_second, h.attribute?_second]
  rcases r.binding_cases hx with ⟨hshort, hlong, -⟩ | ⟨value, hvalue, hnone, hnone', hvalue', -⟩
  · rw [hshort, hlong]
  · rw [hvalue, hnone, hnone', hvalue']
    rfl

theorem readSlotTarget : e.readSlotTarget.Respelled r n e'.readSlotTarget := by
  obtain ⟨hsame, hrest⟩ := h.takeBindingOrText_filter "slot" (by simp)
  simp only [Element.readSlotTarget, hsame]
  generalize (e.takeBindingOrText "slot").2 = rest at hrest ⊢
  generalize (e'.takeBindingOrText "slot").2 = rest' at hrest ⊢
  have hdynamic : (rest'.hasAttribute ":slot" || rest'.hasAttribute "v-bind:slot") =
      (rest.hasAttribute ":slot" || rest.hasAttribute "v-bind:slot") :=
    hrest.hasBinding "slot" (by decide)
  rw [hdynamic]
  split
  · exact hrest
  · rename_i target _
    have htarget := hrest.change (fun el =>
      { el with
        slotTarget := some (if target = "\"\"" then defaultSlot else target)
        slotTargetDynamic := rest.hasAttribute ":slot" || rest.hasAttribute "v-bind:slot" }) fun _ => rfl
    have hkept : (decide (rest'.tag ≠ "template") && rest'.slotScope.isNone) =
        (decide (rest.tag ≠ "template") && rest.slotScope.isNone) := by
      rw [hrest.tag, hrest.read Element.slotScope fun _ => rfl]
    rw [hkept]
    split
    · exact htarget.addAttribute "slot" target _ _ false
    · exact htarget

end

/-- The slot that a slot directive names does not depend on its spelling. -/
theorem slotUse (hname : a'.name = a.name ∨ long? a.name = some a'.name)
    (hvalue : a'.value = a.value) (hslot : isSlot a.name = true) :
    (Element.slotUse a').value = (Element.slotUse a).value := by
  rcases hname with hsame | hlong
  · simp only [Element.slotUse, value_bind, value_pure, hsame, hvalue]
  · obtain ⟨x, hx, hshort, hlong⟩ := afterSlot?_of_long? hlong hslot
    simp only [Element.slotUse, value_bind, value_pure, hvalue, hshort, hlong,
      Option.getD_some, hx, decide_false, Bool.false_and, Bool.false_eq_true, if_false]

/-- The first slot directive is taken from both; those left are spelled alike. -/
theorem takeFirst (h : e.Respelled r (n + 1) e') :
    (e.takeFirst isSlot).2.Respelled r n (e'.takeFirst isSlot).2 ∧
      ((e.takeFirst isSlot).1 = none ∧ (e'.takeFirst isSlot).1 = none ∨
        ∃ a a', (e.takeFirst isSlot).1 = some a ∧
          (e'.takeFirst isSlot).1 = some a' ∧
          (Element.slotUse a').value = (Element.slotUse a).value) := by
  have htest (a a' : Attribute) (haa : a'.name = r.spell a.name ∧ a'.value = a.value) :
      isSlot a'.name = isSlot a.name := by
    rw [haa.1]
    rcases r.each a.name with hsame | hlong
    · rw [hsame]
    · exact isSlot_of_long? hlong
  constructor
  · refine ⟨h.shown, h.opening, h.opening_second, ?_, ?_, ?_, h.models⟩
    · exact forall₂_eraseP h.pending fun a _ a' haa => htest a a' haa
    · exact fun a ha => h.listed a (mem_of_mem_eraseP ha)
    · show ∀ a ∈ ((e.pending.eraseP _).filter _).drop n, _
      rw [filter_eraseP_self, drop_tail]
      exact h.slots
  · show e.pending.find? _ = none ∧ e'.pending.find? _ = none ∨
      ∃ a a', e.pending.find? _ = some a ∧ e'.pending.find? _ = some a' ∧ _
    rcases forall₂_find? h.pending htest with hnone | ⟨a, a', ha, ha', hname, hvalue⟩
    · exact .inl hnone
    · have hslot : isSlot a.name = true := by simpa using find?_some ha
      refine .inr ⟨a, a', ha, ha', slotUse ?_ hvalue hslot⟩
      rw [hname]
      exact r.each a.name

theorem readSlotDirective (h : e.Respelled r (n + 1) e') (platform : Platform)
    (parentIsComponent parentIsComponent' : Option Bool) :
    (e.readSlotDirective platform parentIsComponent).value.1.Respelled r n
        (e'.readSlotDirective platform parentIsComponent').value.1 ∧
      (e'.readSlotDirective platform parentIsComponent').value.2 =
        (e.readSlotDirective platform parentIsComponent).value.2 := by
  obtain ⟨hrest, hfirst⟩ := h.takeFirst
  simp only [Element.readSlotDirective]
  generalize e.takeFirst isSlot = taken at hrest hfirst
  generalize e'.takeFirst isSlot = taken' at hrest hfirst
  obtain ⟨first, rest⟩ := taken
  obtain ⟨first', rest'⟩ := taken'
  dsimp only at hrest hfirst ⊢
  rcases hfirst with ⟨rfl, rfl⟩ | ⟨a, a', rfl, rfl, huse⟩
  · exact ⟨hrest, rfl⟩
  · simp only [hrest.tag]
    split
    · simp only [readTemplateSlot, value_bind, value_pure, huse]
      exact ⟨hrest.change (fun el => { el with
        slotTarget := some (Element.slotUse a).value.name
        slotTargetDynamic := (Element.slotUse a).value.dynamic
        slotScope := some (Element.slotUse a).value.scope }) fun _ => rfl, trivial⟩
    · exact ⟨hrest, congrArg some huse⟩

theorem readPlacement (h : e.Respelled r (n + 1) e') (platform : Platform)
    (parent parent' : Option Element) (inLoop : Bool) :
    (Builder.readPlacement platform parent inLoop e).value.1.Respelled r n
        (Builder.readPlacement platform parent' inLoop e').value.1 ∧
      (Builder.readPlacement platform parent' inLoop e').value.2 =
        (Builder.readPlacement platform parent inLoop e).value.2 := by
  have hkeyed := (h.readKey (parent.map Element.tag) (parent'.map Element.tag)).markPlain
  have htargeted := (hkeyed.readRef inLoop).readScope.readSlotTarget
  simp only [Builder.readPlacement, readSlotContent, value_bind]
  exact htargeted.readSlotDirective platform _ _

section

variable (h : e.Respelled r n e')
include h

theorem readOutlet : e.readOutlet.value.Respelled r n e'.readOutlet.value := by
  rw [Element.readOutlet, Element.readOutlet, h.tag]
  split
  · rename_i htag
    rw [h.tag_eq] at htag
    have hminds : r.first.mindsSpelling (":" ++ "name") = true := by
      simp [Opening.mindsSpelling, htag]
    obtain ⟨hvalue, hrest⟩ := h.takeBindingOrText_eq (by decide) (by decide) hminds
    simp only [hvalue, value_bind, value_pure]
    exact hrest.change (fun el => { el with slotName := _ }) fun _ => rfl
  · exact h

theorem readComponent : e.readComponent.Respelled r n e'.readComponent := by
  obtain ⟨hname, hnamed⟩ := h.takeBindingOrText_filter "is" (by simp)
  obtain ⟨hmark, hrest⟩ := hnamed.take_fixed "inline-template" rfl
  simp only [Element.readComponent, hname, hmark]
  exact hrest.change (fun el => { el with
    component := Option.or _ el.component
    inlineTemplate := _ || el.inlineTemplate }) fun _ => rfl

theorem readStatic {name : String} (hname : isFixed name = true) {cause : String → Cause}
    {code : String → String} {note : Option String → Element → Element}
    (hnote : ∀ value, PassesShown (note value)) (surroundings : Surroundings) :
    (Extension.readStatic name cause code note surroundings e).value.Respelled r n
      (Extension.readStatic name cause code note surroundings e').value :=
  h.note_fixed name hname (fun value => note ((value.filter (· ≠ "")).map code)) fun _ => hnote _

theorem readBound (name : String) (hname : name ≠ "")
    (hminds : r.first.mindsSpelling (":" ++ name) = true) (note : Option String → Element → Element)
    (hnote : ∀ value, PassesShown (note value)) :
    (Extension.readBound name note e).Respelled r n (Extension.readBound name note e') := by
  obtain ⟨hrest, hsame | ⟨-, -, hnot⟩⟩ := h.takeBinding hname
  · simp only [Extension.readBound, hsame]
    exact hrest.change _ (hnote _)
  · rw [hminds] at hnot
    cases hnot

theorem atEnd (surroundings : Surroundings) :
    (Extension.runAll Extension.atEnd Options.web.extensions surroundings e).value.Respelled r n
      (Extension.runAll Extension.atEnd Options.web.extensions surroundings e').value := by
  refine foldlM_relates (forall₂_same.mpr fun x hx d d' hd => ?_) h
  rcases Options.eq_of_mem_web hx with rfl | rfl
  · have hread : (Extension.readStaticClass surroundings d).value.Respelled r n
        (Extension.readStaticClass surroundings d').value :=
      hd.readStatic (by decide) (fun _ _ => rfl) surroundings
    exact hread.readBound "class" (by decide) rfl
      (fun c el => { el with classBinding := c.or el.classBinding }) fun _ _ => rfl
  · have hread : (Extension.readStaticStyle surroundings d).value.Respelled r n
        (Extension.readStaticStyle surroundings d').value :=
      hd.readStatic (by decide) (fun _ _ => rfl) surroundings
    exact hread.readBound "style" (by decide) rfl
      (fun s el => { el with styleBinding := s.or el.styleBinding }) fun _ _ => rfl

end

/-! ## Classification -/

section

variable (h : e.Respelled r n e')
include h

theorem usesProperty (platform : Platform) (name : String) :
    Element.usesProperty platform e' name = Element.usesProperty platform e name := by
  rw [Element.usesProperty, Element.usesProperty, h.tag, h.read Element.component fun _ => rfl,
    h.attribute?_fixed (by decide)]

theorem addLiteral (surroundings : Surroundings) (hname : a'.name = a.name)
    (hvalue : a'.value = a.value) :
    (e.addLiteral surroundings a).value.Respelled r n (e'.addLiteral surroundings a').value := by
  have hadded := h.addAttribute a.name (Text.quote a.value) a.range a'.range false
  simp only [Element.addLiteral, value_bind, hname, hvalue, hadded.usesProperty]
  split
  · exact hadded.addProperty a.name "true" a.range a'.range false
  · exact hadded

theorem addSync (name value : String) (dynamic : Bool) (range range' : Option Range) :
    (e.addSync name value dynamic range).Respelled r n (e'.addSync name value dynamic range') := by
  rw [Element.addSync, Element.addSync]
  induction updateEvents name dynamic generalizing e e' with
  | nil => exact h
  | cons event events ih => exact ih (h.addListener rfl)

theorem addBinding (platform : Platform) (name : String) (dynamic : Bool)
    (modifiers : Option Modifiers) (hvalue : a'.value = a.value) :
    (e.addBinding platform name dynamic modifiers a).value.Respelled r n
      (e'.addBinding platform name dynamic modifiers a').value := by
  have hadd {d d' : Element} (hd : d.Respelled r n d') (name value : String) :
      (if hasModifier modifiers "prop" || Element.usesProperty platform d name then
        d.addProperty name value a.range dynamic
      else d.addAttribute name value a.range dynamic).Respelled r n
      (if hasModifier modifiers "prop" || Element.usesProperty platform d' name then
        d'.addProperty name value a'.range dynamic
      else d'.addAttribute name value a'.range dynamic) := by
    rw [hd.usesProperty]
    split
    · exact hd.addProperty name value a.range a'.range dynamic
    · exact hd.addAttribute name value a.range a'.range dynamic
  simp only [Element.addBinding, value_ite, value_bind, value_pure, hvalue]
  split
  · exact hadd (h.addSync _ _ dynamic a.range a'.range) _ _
  · exact hadd h _ _

theorem addGeneral (items items' : List String) (name : String) (argument : Option (String × Bool))
    (modifiers : Option Modifiers) (hname : a'.name = a.name) (hvalue : a'.value = a.value)
    (hmodel : name = "model" → r.first.written.keys.any Opening.isModel = true) :
    (e.addGeneral items name argument modifiers a).value.Respelled r n
      (e'.addGeneral items' name argument modifiers a').value := by
  simp only [Element.addGeneral, value_bind, value_pure, hname, hvalue]
  refine ⟨?_, h.opening, h.opening_second, h.pending, h.listed, h.slots, ?_⟩
  · rw [shown_addDirective, shown_addDirective, h.shown]
    rfl
  · intro d hd hdname
    rcases mem_append.mp hd with hd | hd
    · exact h.models d hd hdname
    · rw [mem_singleton.mp hd] at hdname
      exact hmodel hdname

/-- Attributes that correspond are classified alike. A slot directive has to be spelled alike. -/
theorem classify (surroundings : Surroundings) (items items' : List String)
    (hname : a'.name = r.spell a.name) (hvalue : a'.value = a.value)
    (hhas : r.first.has a.name = true)
    (hslot : isSlot a.name = true → r.spell a.name = a.name) :
    (e.classify surroundings items a).value.Respelled r n
      (e'.classify surroundings items' a').value := by
  have hbound := h.change (fun el => { el with hasBindings := true }) fun _ => rfl
  rw [Element.classify, Element.classify, hname]
  rcases r.each a.name with hsame | hlong
  · rw [hsame] at hname ⊢
    split
    · exact h.addLiteral surroundings hname hvalue
    · exact hbound.addBinding surroundings.platform _ _ _ hvalue
    · rw [hvalue]
      exact hbound.addListener rfl
    · rename_i name argument modifiers hrole
      refine hbound.addGeneral items items' name argument modifiers hname hvalue fun hmodel => ?_
      rw [List.any_eq_true]
      refine ⟨a.name, Keyed.mem_keys_of_contains hhas, ?_⟩
      rw [Opening.isModel, hrole, hmodel]
      rfl
  · have hother : isSlot a.name = false := by
      rw [← Bool.not_eq_true]
      intro hthis
      rw [hslot hthis] at hlong
      have hnone := long?_of_long? hlong
      rw [hlong] at hnone
      cases hnone
    obtain ⟨x, dynamic, modifiers, ⟨hshort, hlong⟩ | ⟨hshort, hlong⟩⟩ :=
      role_of_long? hlong hother
    · rw [hshort, hlong]
      exact hbound.addBinding surroundings.platform x dynamic modifiers hvalue
    · rw [hshort, hlong, hvalue]
      exact hbound.addListener rfl

end

theorem classifyAll (h : e.Respelled r 0 e') (surroundings : Surroundings)
    (items items' : List String) :
    (e.classifyAll surroundings items).value.Respelled r 0
      (e'.classifyAll surroundings items').value := by
  have hlisted : ∀ a ∈ e.pending, r.first.has a.name = true ∧
      (isSlot a.name = true → r.spell a.name = a.name) := fun a ha =>
    ⟨h.listed a ha, fun hslot => h.slots a (mem_filter.mpr ⟨ha, hslot⟩)⟩
  refine foldlM_relates (R := Element.Respelled r 0) ?_ h
  refine ((forall₂_and_left _ _).mpr ⟨hlisted, h.pending⟩).imp ?_
  rintro a a' ⟨⟨hhas, hslot⟩, hname, hvalue⟩ d d' hd
  exact hd.classify surroundings items items' hname hvalue hhas hslot

theorem readContent (h : e.Respelled r 0 e') (items items' : List String) :
    (Builder.readContent .web items e).value.Respelled r 0
      (Builder.readContent .web items' e').value := by
  simp only [Builder.readContent, value_bind]
  exact (h.readOutlet.readComponent.atEnd _).classifyAll _ items items'

/-- The elements of two start tags whose attributes correspond. -/
theorem ofTag {rewritten : Attribute → Bool} {tag : String} {l l' : List Attribute}
    (h : RespelledAttributes rewritten tag l l') (parent : Option NodeId) :
    (Element.ofTag tag l parent).Respelled h.respelling 1 (Element.ofTag tag l' parent) where
  shown := rfl
  opening := rfl
  opening_second := rfl
  pending := h.spelled
  listed _ ha := RespelledAttributes.has_of_mem tag ha
  slots a ha := h.spelling_of_not_rewritten
    (mem_of_mem_filter (mem_of_mem_drop ha)) (h.slots a ha)
  models _ hd := by cases hd

end Respelled

end Element

end ViewTemplate

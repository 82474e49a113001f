import ViewTemplate.Proofs.ForestBuilding
import ViewTemplate.Proofs.UnmarkedTree

/-! # Extensions and rules that keep to the attributes

What is brought from outside may do as it likes with the attributes of an element, but not with its
links, flags and marks. The extensions and rules for documents are of this kind.
-/

open List

namespace ViewTemplate

/-- What an extension writes does not depend on static marks. -/
structure Extension.IgnoresMarks (extension : Extension) : Prop where
  data : ∀ el, extension.data el.unmarked = extension.data el
  around : ∀ el, extension.around el.unmarked = extension.around el

/-- An extension that keeps to the attributes of elements: it edits no links, sets no flags, brings
neither `v-once` nor `v-pre`, and does not look at static marks when it writes. -/
structure Extension.Confined (extension : Extension) : Prop where
  links : extension.KeepsLinks
  flags : extension.Keeps Element.flags
  ordinary : ∀ surroundings el, el.Ordinary → (extension.atStart surroundings el).value.Ordinary
  ignoresMarks : extension.IgnoresMarks

theorem Extension.confined_web : ∀ x ∈ Options.web.extensions, x.Confined := by
  intro x hx
  have hlinks := keepsLinks_web x hx
  have hflags := (keeps_frame_web x hx).map fun f => f.identity.flags
  rcases Options.eq_of_mem_web hx with rfl | rfl
  · exact ⟨hlinks, hflags, fun _ _ h => h, fun _ => rfl, fun _ => rfl⟩
  · exact ⟨hlinks, hflags, fun _ _ h => h, fun _ => rfl, fun _ => rfl⟩

namespace Rule

/-- What a rule does depends on no static marks and sets none. -/
def IgnoresMarks (rule : Rule) : Prop :=
  ∀ surroundings el directive, rule surroundings el.unmarked directive =
    (fun e => (e.1.unmarked, e.2)) <$> rule surroundings el directive

theorem ignoresMarks_content (property : String) : IgnoresMarks (content property) := by
  intro surroundings el directive
  ext1
  · simp only [content, Reported.value_pure, Reported.value_map]
    split <;> rfl
  · rfl

theorem ignoresMarks_on : IgnoresMarks on := by
  intro surroundings el directive
  simp only [on, map_bind, map_pure]
  rfl

theorem ignoresMarks_model : IgnoresMarks model := by
  intro surroundings el directive
  have hfile : Model.reportFileInput.{0} el.unmarked directive =
    Model.reportFileInput el directive := rfl
  have hconflict : Model.reportConflict.{0} el.unmarked = Model.reportConflict el := rfl
  have hcomponent : Model.component el.unmarked directive =
    (Model.component el directive).unmarked := rfl
  have hselect : Model.select el.unmarked directive = (Model.select el directive).unmarked := rfl
  have hcheckbox : Model.checkbox el.unmarked directive =
    (Model.checkbox el directive).unmarked := rfl
  have hradio : Model.radio el.unmarked directive = (Model.radio el directive).unmarked := rfl
  have hinput : Model.input el.unmarked directive = (Model.input el directive).unmarked := by
    have hevent : Model.inputEvent el.unmarked directive = Model.inputEvent el directive := rfl
    have hlistener (e : Element) (l : Listener) :
      e.unmarked.addListener l = (e.addListener l).unmarked := rfl
    simp only [Model.input, hevent]
    split
    · exact hlistener (Model.writeBack (el.addProperty ..) _ _) _
    · rfl
  have hchosen : el.unmarked.component = el.component := rfl
  have htag : el.unmarked.tag = el.tag := rfl
  have htype : el.unmarked.attribute? "type" = el.attribute? "type" := rfl
  have hrange : el.unmarked.rangeOf "v-model" = el.rangeOf "v-model" := rfl
  simp only [model, hfile, hconflict, hcomponent, hchosen, htag, htype, hrange,
    hselect, hcheckbox, hradio, hinput, map_bind, apply_ite ((fun e : Element × Bool => (e.1.unmarked, e.2)) <$> ·), map_pure]

theorem ignoresMarks_universal : ∀ rule ∈ universal.values, IgnoresMarks rule :=
  forall_universal ignoresMarks_on (fun _ _ _ => rfl) fun _ _ _ => rfl

theorem ignoresMarks_web : ∀ rule ∈ Options.web.rules.values, IgnoresMarks rule :=
  forall_web ignoresMarks_model ignoresMarks_content

end Rule

/-- A value after several insertions is an old one or a new one. -/
theorem Keyed.mem_values_foldl_insert {α : Type} {es : List (String × α)} {m : Keyed α} {value : α}
    (h : value ∈ (es.foldl (fun m e => m.insert e.1 e.2) m).values) :
    value ∈ m.values ∨ value ∈ es.map Prod.snd := by
  induction es generalizing m with
  | nil => exact .inl h
  | cons e es ih =>
    rcases ih h with h | h
    · rcases Keyed.mem_values_insert h with h | rfl
      · exact .inl h
      · exact .inr mem_cons_self
    · exact .inr (mem_cons_of_mem _ h)

/-- A rule of two layers is one of either. -/
theorem Rules.mem_values_layered {lower upper : Rules} {name : String} {rule : Rule}
    (h : (Rules.layered lower upper).get? name = some rule) :
    rule ∈ lower.values ∨ rule ∈ upper.values :=
  Keyed.mem_values_foldl_insert (Keyed.mem_values_of_get? h)

end ViewTemplate

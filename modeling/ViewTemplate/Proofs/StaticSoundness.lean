import ViewTemplate.Proofs.MarkedContent
import ViewTemplate.Proofs.UnmarkedTree
import ViewTemplate.Proofs.VerbatimRegions

/-! # Static content does not change

A static node is told by the names of the properties that are set on it and on what it holds. Read as
a document, a static node holds no text with bindings and no element with a property that could make
it render differently; and what it holds is static too, as far as no verbatim region is entered.
-/

open List Option

namespace ViewTemplate

namespace Element

/-- For each of the dynamics whether it is there, and the key by which it is told. -/
def Dynamics.keys (d : Dynamics) : List (Bool × String) :=
  [(d.loop.isSome, "for"), (d.choice.isSome, "if"), (d.elseIf.isSome, "elseif"),
    (d.isElse, "else"), (d.once, "once"), (d.key.isSome, "key"), (d.ref.isSome, "ref"),
    (d.slotTarget.isSome, "slotTarget"), (d.slotScope.isSome, "slotScope"),
    (!d.scopedSlots.isEmpty, "scopedSlots"), (d.component.isSome, "component"),
    (d.inlineTemplate, "inlineTemplate"), (d.hasBindings, "hasBindings"),
    (!d.directives.isEmpty, "directives"), (!d.events.isEmpty, "events"),
    (!d.nativeEvents.isEmpty, "nativeEvents"), (!d.properties.isEmpty, "props"),
    (!d.dynamicAttributes.isEmpty, "dynamicAttrs"), (d.classBinding.isSome, "classBinding"),
    (d.styleBinding.isSome, "styleBinding")]

/-- No dynamics is without a key. -/
theorem Dynamics.eq_empty {d : Dynamics} (h : ∀ e ∈ d.keys, e.1 = false) : d = {} := by
  have hkeyed {α : Type} {m : Keyed α} (hm : m.isEmpty = true) : m = {} :=
    Keyed.ext (List.isEmpty_iff.mp hm)
  simp only [keys, forall_mem_cons, isSome_eq_false_iff, isNone_iff_eq_none,
    Bool.not_eq_false', List.isEmpty_iff] at h
  obtain ⟨hloop, hchoice, helseIf, hisElse, honce, hkey, href, htarget, hscope, hslots, hcomponent,
    hinline, hbindings, hdirectives, hevents, hnative, hproperties, hdynamic, hclass, hstyle, -⟩ := h
  cases d
  simp only at *
  subst hloop hchoice helseIf hisElse honce hkey href htarget hscope hcomponent hinline hbindings
    hdirectives hproperties hdynamic hclass hstyle
  rw [hkeyed hslots, hkeyed hevents, hkeyed hnative]

/-- The keys of the dynamics are among the keys of the element. -/
theorem mem_definedKeys (el : Element) :
    ∀ e ∈ el.dynamics.keys, e.1 = true → e.2 ∈ el.definedKeys := by
  delta definedKeys
  simp only [Dynamics.keys, forall_mem_cons, mem_append, dynamics, not_mem_nil,
    false_implies, implies_true, and_true]
  and_intros
  all_goals
    intro h
    simp only [h, Bool.true_or, if_true, mem_singleton, true_or, or_true]

end Element

namespace Static

/-- Without static keys from elsewhere, the keys that leave an element of a document static. -/
theorem keys_web : keys Options.web = baseKeys ++ ["staticClass", "staticStyle"] := by
  decide +kernel

/-- No dynamics leaves an element of a document static. -/
theorem dynamics_of_isStaticAlone {options : Options} {tree : Tree} {el : Element}
    (hkeys : options.staticKeys = Options.web.staticKeys)
    (halone : isStaticAlone options tree el = true) (hpre : el.pre = false) : el.dynamics = {} := by
  have hstatic : ∀ key ∈ el.definedKeys, key ∈ keys Options.web := by
    have hsame : keys options = keys Options.web := by
      rw [keys, keys, hkeys]
    simp only [isStaticAlone, hpre, Bool.false_or, Bool.and_eq_true, List.all_eq_true,
      contains_iff_mem, hsame] at halone
    exact halone.2
  have hnone : ∀ key ∈ el.dynamics.keys.map Prod.snd, key ∉ keys Options.web := by
    rw [keys_web]
    show ∀ key ∈ ({} : Element.Dynamics).keys.map Prod.snd, _
    decide
  apply Element.Dynamics.eq_empty
  intro e he
  by_contra hset
  have hdefined := el.mem_definedKeys e he (Bool.eq_true_of_not_eq_false hset)
  exact hnone e.2 (List.mem_map_of_mem he) (hstatic e.2 hdefined)

/-- An element that is static by itself and opens no verbatim region keeps its content. -/
theorem not_isReplaceable {options : Options} {tree : Tree} {el : Element}
    (halone : isStaticAlone options tree el = true) (hpre : el.pre = false) :
    isReplaceable options.platform el = false := by
  simp only [isStaticAlone, hpre, Bool.false_or, Bool.and_eq_true, Bool.not_eq_true'] at halone
  obtain ⟨⟨⟨⟨-, hbuiltIn⟩, hreserved⟩, -⟩, -⟩ := halone
  have hslot : (el.tag == "slot") = false := by
    rw [beq_eq_false_iff_ne]
    intro htag
    rw [htag] at hbuiltIn
    exact absurd hbuiltIn (by decide)
  rw [isReplaceable, hreserved, hslot]
  rfl

end Static

/-- Extensions without static keys do not change those for documents. -/
theorem Options.staticKeys_layered {overrides : Overrides}
    (h : ∀ x ∈ overrides.extensions, x.staticKeys = []) :
    (Options.web.layered overrides).staticKeys = Options.web.staticKeys := by
  have hnone : overrides.extensions.flatMap Extension.staticKeys = [] :=
    flatMap_eq_nil_iff.mpr h
  simp only [layered]
  split
  · rfl
  · rw [staticKeysOf, flatMap_append, hnone, append_nil]
    rfl

namespace Tree

/-- A node is a child of an element. -/
def HasChild (tree : Tree) (i c : NodeId) : Prop :=
  ∃ el, tree.element? i = some el ∧ c ∈ el.children

/-- A node is a child of an element that opens no verbatim region. -/
def HasOpenChild (tree : Tree) (i c : NodeId) : Prop :=
  ∃ el, tree.element? i = some el ∧ el.pre = false ∧ c ∈ el.children

section

variable {ledger : Ledger} {tree : Tree} {opened stack : List NodeId} {options : Options}
  {region : NodeId → Prop} {verbatim : Bool} {i c : NodeId} {el : Element}

/-- A node of a tree without marks is not static. -/
theorem isStatic_of_unmarked (hplain : tree.unmarked = tree) {node : Node}
    (hnode : tree.node? i = some node) : node.isStatic = false := by
  have hsame := node?_unmarked tree i
  rw [hplain, hnode, map_some, Option.some.injEq] at hsame
  rw [hsame]
  cases node <;> rfl

/-- A literal text stays one. -/
theorem Sound.plain_marked (h : tree.Sound ledger opened []) {t : PlainText}
    (ht : tree.node? i = some (.plain t)) :
    ∃ t', (tree.marked options).node? i = some (.plain t') := by
  have hsame := h.map_node?_marked options i
  rw [ht, map_some] at hsame
  obtain ⟨node, hnode, heq⟩ := map_eq_some_iff.mp hsame
  cases node with
  | element el => cases heq
  | interpolated t' => cases heq
  | plain t' => exact ⟨t', hnode⟩

section Marks

variable (h : tree.Sound ledger opened []) (hplain : tree.unmarked = tree)
include h hplain

/-- Only what the passes reach is static. -/
theorem Sound.outer_of_static (hstatic : (tree.marked options).isStaticNode i = true) :
    tree.Outer i := by
  by_contra houter
  rw [isStaticNode, h.node?_marked options houter, Option.any_eq_true] at hstatic
  obtain ⟨node, hnode, htrue⟩ := hstatic
  rw [isStatic_of_unmarked hplain hnode] at htrue
  cases htrue

/-- A text with bindings is not static. -/
theorem Sound.not_static_interpolated {t : InterpolatedText}
    (ht : (tree.marked options).node? i = some (.interpolated t)) :
    (tree.marked options).isStaticNode i = false := by
  rw [Bool.eq_false_iff]
  intro hstatic
  obtain ⟨visited, inLoop, hpassed⟩ := h.exists_passed options (h.outer_of_static hplain hstatic)
  obtain ⟨height, hground⟩ := h.exists_grounded
  obtain ⟨n, -, hpass⟩ := h.contentTo_of_passed hground hpassed
  rw [← isStatic_contentTo _ n, hpass, Static.isStatic_pass] at hstatic
  have hsame := h.map_node?_marked options i
  rw [ht, map_some] at hsame
  obtain ⟨node₀, hnode₀, heq⟩ := map_eq_some_iff.mp hsame.symm
  cases node₀ with
  | element el => cases heq
  | plain t₀ => cases heq
  | interpolated t₀ =>
    have hnone : t₀.isStatic = false := isStatic_of_unmarked hplain hnode₀
    have hcontent : tree.contentTo (n + 1) i = .interpolated i t₀ := by
      rw [contentTo, hnode₀]
    rw [hcontent] at hstatic
    cases visited with
    | true => cases hstatic
    | false =>
      have htrue : t₀.isStatic = true := hstatic
      rw [hnone] at htrue
      cases htrue

/-- What a static element shows of itself and of what it holds. -/
theorem Sound.static_element (hel : (tree.marked options).element? i = some el)
    (hstatic : el.isStatic = true) :
    Static.isStaticAlone options tree el = true ∧
      (el.pre = false → ∀ c ∈ el.children, (tree.marked options).isStaticNode c = true) := by
  have hnode : (tree.marked options).isStaticNode i = true := by
    rw [isStaticNode, node?_of_element? hel]
    exact hstatic
  obtain ⟨visited, inLoop, hpassed⟩ := h.exists_passed options (h.outer_of_static hplain hnode)
  obtain ⟨-, halone, hheld⟩ := h.static_of_passed hplain hpassed hel hstatic
  refine ⟨halone, fun hpre c hc => ?_⟩
  rcases hheld with hreplace | hheld
  · rw [Static.not_isReplaceable halone hpre] at hreplace
    cases hreplace
  · exact hheld c (mem_append_left _ hc)

end Marks

/-- A node that does not change: it lies in a verbatim region, is literal text, or is static. -/
def Settled (region : NodeId → Prop) (tree : Tree) (i : NodeId) : Prop :=
  region i ∨ (∃ t, tree.node? i = some (.plain t)) ∨ tree.isStaticNode i = true

section Settled

variable (h : tree.Sound ledger opened []) (hplain : tree.unmarked = tree)
  (hverbatim : tree.Verbatim region stack verbatim)
include h hverbatim

theorem Sound.region_of_pre (hel : (tree.marked options).element? i = some el)
    (hpre : el.pre = true) : region i := by
  obtain ⟨el₀, hel₀, hsame⟩ := h.element?_marked hel
  have hpre₀ : el.pre = el₀.pre := by
    have := congrArg Element.pre hsame
    exact this
  exact hverbatim.pre i el₀ hel₀ (hpre₀ ▸ hpre)

include hplain

/-- The children of a settled element are settled. -/
theorem Sound.settled_child (hi : (tree.marked options).Settled region i)
    (hc : (tree.marked options).HasChild i c) : (tree.marked options).Settled region c := by
  obtain ⟨el, hel, hc⟩ := hc
  have hregion (hi : region i) : (tree.marked options).Settled region c := by
    obtain ⟨el₀, hel₀, hsame⟩ := h.element?_marked hel
    have hchildren : el.children = el₀.children :=
      congrArg Element.Links.children (Element.links_of_unmarked hsame)
    rcases hverbatim.child i el₀ hel₀ hi c (hchildren ▸ hc) with hregion | ⟨t, ht⟩
    · exact .inl hregion
    · exact .inr (.inl (h.plain_marked ht))
  rcases hi with hi | ⟨t, ht⟩ | hstatic
  · exact hregion hi
  · rw [node?_of_element? hel] at ht
    cases ht
  · rw [isStaticNode, node?_of_element? hel] at hstatic
    cases hpre : el.pre with
    | true => exact hregion (h.region_of_pre hverbatim hel hpre)
    | false => exact .inr (.inr ((h.static_element hplain hel hstatic).2 hpre c hc))

/-- A settled node is literal text or an element without dynamics. -/
theorem Sound.inert_of_settled (hkeys : options.staticKeys = Options.web.staticKeys)
    (hi : (tree.marked options).Settled region i) :
    (∃ t, (tree.marked options).node? i = some (.plain t)) ∨
      ∃ el, (tree.marked options).element? i = some el ∧ el.dynamics = {} := by
  have hregion {el : Element} (hel : (tree.marked options).element? i = some el)
      (hi : region i) : el.dynamics = {} := by
    obtain ⟨el₀, hel₀, hsame⟩ := h.element?_marked hel
    have hdynamics : el.dynamics = el₀.dynamics := by
      have := congrArg Element.dynamics hsame
      exact this
    exact hdynamics.trans (hverbatim.inert i el₀ hel₀ hi)
  rcases hi with hi | hplain' | hstatic
  · obtain ⟨el₀, hel₀⟩ := hverbatim.element i hi
    obtain ⟨el, hel, -⟩ := h.exists_marked options hel₀
    exact .inr ⟨el, hel, hregion hel hi⟩
  · exact .inl hplain'
  · have hany := hstatic
    rw [isStaticNode, Option.any_eq_true] at hany
    obtain ⟨node, hnode, htrue⟩ := hany
    cases node with
    | plain t => exact .inl ⟨t, hnode⟩
    | interpolated t =>
      rw [h.not_static_interpolated hplain hnode] at hstatic
      cases hstatic
    | element el =>
      have hel := element?_of_node? hnode
      refine .inr ⟨el, hel, ?_⟩
      cases hpre : el.pre with
      | true => exact hregion hel (h.region_of_pre hverbatim hel hpre)
      | false =>
        have halone := (h.static_element hplain hel htrue).1
        exact Static.dynamics_of_isStaticAlone hkeys halone hpre

end Settled

end

/-- Marking is sound for documents, whatever is put on top of the options for them, as long as that
brings no static keys and leaves verbatim regions alone: what a static node holds does not change,
and down to the next verbatim region it is static too. -/
theorem static_content_inert (overrides : Overrides) (template : String)
    (hextensions : ∀ x ∈ overrides.extensions, x.SparesVerbatim)
    (hkeys : ∀ x ∈ overrides.extensions, x.staticKeys = []) :
    let options := Options.web.layered overrides
    let tree := (ofTemplate options template).value.marked options
    ∀ i, tree.isStaticNode i = true →
      (∀ j, Relation.ReflTransGen tree.HasChild i j →
        (∃ t, tree.node? j = some (.plain t)) ∨
          ∃ el, tree.element? j = some el ∧ el.dynamics = {}) ∧
      ∀ j, Relation.ReflTransGen tree.HasOpenChild i j → tree.isStaticNode j = true := by
  intro options tree i hi
  have hspares : ∀ x ∈ options.extensions, x.SparesVerbatim := by
    intro x hx
    rcases mem_append.mp hx with hx | hx
    · exact Extension.sparesVerbatim_web x hx
    · exact hextensions x hx
  have hlinks : ∀ x ∈ options.extensions, x.KeepsLinks := fun x hx => (hspares x hx).links
  obtain ⟨ledger, hsound, -⟩ := exists_sound_ofTemplate hlinks template
  have hplain := unmarked_ofTemplate (fun x hx => (hspares x hx).marks) template
  obtain ⟨region, hverbatim⟩ := verbatim_ofTemplate hspares template
  constructor
  · intro j hj
    apply hsound.inert_of_settled hplain hverbatim (Options.staticKeys_layered hkeys)
    induction hj with
    | refl => exact .inr (.inr hi)
    | tail _ hc ih => exact hsound.settled_child hplain hverbatim ih hc
  · intro j hj
    induction hj with
    | refl => exact hi
    | tail _ hc ih =>
      obtain ⟨el, hel, hpre, hc⟩ := hc
      rw [isStaticNode, node?_of_element? hel] at ih
      exact (hsound.static_element hplain hel ih).2 hpre _ hc

/-- An extension that adds a literal attribute to every element leaves a static element with a
verbatim region in it inert. -/
theorem static_content_of_verbatim_inside :
    let extension : Extension :=
      { name := "seen", atEnd := fun _ el => pure (el.addAttribute "seen" "1" none false) }
    let options := Options.web.layered { extensions := [extension] }
    let tree := (ofTemplate options
      "<div><p>a</p><b v-pre>\x7b\x7bx\x7d\x7d<i v-if='y' :z='z'></i></b></div>").value.marked options
    (∀ x ∈ [extension], x.SparesVerbatim) ∧ (∀ x ∈ [extension], x.staticKeys = []) ∧
      tree.isStaticNode 0 = true ∧
      (∀ j, Relation.ReflTransGen tree.HasChild 0 j →
        (∃ t, tree.node? j = some (.plain t)) ∨
          ∃ el, tree.element? j = some el ∧ el.dynamics = {}) ∧
      ∀ j, Relation.ReflTransGen tree.HasOpenChild 0 j → tree.isStaticNode j = true := by
  intro extension options tree
  have hextension : ∀ x ∈ [extension], x.SparesVerbatim := by
    intro x hx
    obtain rfl := mem_singleton.mp hx
    have hframe : extension.Keeps Element.frame :=
      ⟨fun _ _ => rfl, fun _ el => el.frame_addAttribute "seen" "1" none false, fun _ _ => rfl⟩
    exact ⟨⟨hframe.map Element.Frame.links, fun _ _ => rfl⟩,
      hframe.map fun f => f.identity.marks, hframe.map Element.Frame.pre, fun _ _ => rfl,
      fun _ _ => rfl⟩
  have hkeys : ∀ x ∈ [extension], x.staticKeys = [] := by
    intro x hx
    obtain rfl := mem_singleton.mp hx
    rfl
  have hstatic : tree.isStaticNode 0 = true := by
    decide +kernel
  have hinert := static_content_inert { extensions := [extension] } _ hextension hkeys 0 hstatic
  exact ⟨hextension, hkeys, hstatic, hinert⟩

end Tree

end ViewTemplate

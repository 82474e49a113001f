import ViewTemplate.Proofs.ForestBuilding
import ViewTemplate.Proofs.OpenElements
import ViewTemplate.Proofs.UnmarkedTree

/-! # Verbatim regions

An element with `v-pre` opens a verbatim region, in which no directive is read and no text is
searched for bindings. So nothing in the region makes it change: its elements have none of the
properties that are read from directives, and its texts are literal. The region is followed while the
tree is built; outside of it nothing is claimed.
-/

open List

namespace ViewTemplate

open Element

/-- What makes the rendering of an element depend on more than its tag and literal attributes. -/
structure Element.Dynamics where
  loop : Option Loop := none
  choice : Option Choice := none
  elseIf : Option String := none
  isElse : Bool := false
  once : Bool := false
  key : Option String := none
  ref : Option String := none
  slotTarget : Option String := none
  slotScope : Option String := none
  scopedSlots : Keyed NodeId := {}
  component : Option String := none
  inlineTemplate : Bool := false
  hasBindings : Bool := false
  directives : List Directive := []
  events : Keyed (List Handler) := {}
  nativeEvents : Keyed (List Handler) := {}
  properties : List Attribute := []
  dynamicAttributes : List Attribute := []
  classBinding : Option String := none
  styleBinding : Option String := none

namespace Element

def dynamics (el : Element) : Dynamics where
  loop := el.loop
  choice := el.choice
  elseIf := el.elseIf
  isElse := el.isElse
  once := el.once
  key := el.key
  ref := el.ref
  slotTarget := el.slotTarget
  slotScope := el.slotScope
  scopedSlots := el.scopedSlots
  component := el.component
  inlineTemplate := el.inlineTemplate
  hasBindings := el.hasBindings
  directives := el.directives
  events := el.events
  nativeEvents := el.nativeEvents
  properties := el.properties
  dynamicAttributes := el.dynamicAttributes
  classBinding := el.classBinding
  styleBinding := el.styleBinding

end Element

/-- An extension that leaves verbatim regions alone: it edits neither links nor marks, opens and
closes no regions, and except when the attributes of a closing element are read, which is not done in
a region, it changes no dynamics. -/
structure Extension.SparesVerbatim (extension : Extension) : Prop where
  links : extension.KeepsLinks
  marks : extension.Keeps Element.marks
  pre : extension.Keeps Element.pre
  atStart : ∀ surroundings el, (extension.atStart surroundings el).value.dynamics = el.dynamics
  afterPlacement : ∀ surroundings el,
    (extension.afterPlacement surroundings el).value.dynamics = el.dynamics

theorem Extension.sparesVerbatim_web : ∀ x ∈ Options.web.extensions, x.SparesVerbatim := by
  intro x hx
  have hlinks := keepsLinks_web x hx
  have hframe := keeps_frame_web x hx
  have hmarks := hframe.map fun f => f.identity.marks
  have hpre := hframe.map Element.Frame.pre
  rcases Options.eq_of_mem_web hx with rfl | rfl
  · exact ⟨hlinks, hmarks, hpre, fun _ _ => rfl, fun _ _ => rfl⟩
  · exact ⟨hlinks, hmarks, hpre, fun _ _ => rfl, fun _ _ => rfl⟩

namespace Tree

variable {id : NodeId} {region : NodeId → Prop} {tree : Tree} {stack : List NodeId} {verbatim : Bool}

/-- How the open elements lie to verbatim regions: at most one of them opens a region, and the
elements inside of it belong to the region. -/
inductive Nested (region : NodeId → Prop) (tree : Tree) : List NodeId → Bool → Prop
  | nil : Nested region tree [] false
  | outside {id : NodeId} {el : Element} {stack : List NodeId} (hid : ¬ region id)
      (hel : tree.element? id = some el) (hpre : el.pre = false)
      (rest : Nested region tree stack false) : Nested region tree (id :: stack) false
  | opening {id : NodeId} {el : Element} {stack : List NodeId} (hid : region id)
      (hel : tree.element? id = some el) (hpre : el.pre = true)
      (rest : Nested region tree stack false) : Nested region tree (id :: stack) true
  | inside {id : NodeId} {el : Element} {stack : List NodeId} (hid : region id)
      (hel : tree.element? id = some el) (hpre : el.pre = false)
      (rest : Nested region tree stack true) : Nested region tree (id :: stack) true

theorem Nested.change {region' : NodeId → Prop} {later : Tree}
    (h : Nested region tree stack verbatim)
    (hregion : ∀ id ∈ stack, region' id ↔ region id)
    (hpre : ∀ id el, tree.element? id = some el →
      ∃ el', later.element? id = some el' ∧ el'.pre = el.pre) :
    Nested region' later stack verbatim := by
  induction h with
  | nil => exact .nil
  | @outside id el stack hid hel hel' rest ih =>
    obtain ⟨later', hlater, heq⟩ := hpre id el hel
    have hrest := ih fun j hj => hregion j (mem_cons_of_mem id hj)
    exact .outside (mt (hregion id mem_cons_self).mp hid) hlater (heq.trans hel') hrest
  | @opening id el stack hid hel hel' rest ih =>
    obtain ⟨later', hlater, heq⟩ := hpre id el hel
    have hrest := ih fun j hj => hregion j (mem_cons_of_mem id hj)
    exact .opening ((hregion id mem_cons_self).mpr hid) hlater (heq.trans hel') hrest
  | @inside id el stack hid hel hel' rest ih =>
    obtain ⟨later', hlater, heq⟩ := hpre id el hel
    have hrest := ih fun j hj => hregion j (mem_cons_of_mem id hj)
    exact .inside ((hregion id mem_cons_self).mpr hid) hlater (heq.trans hel') hrest

theorem Nested.element (h : Nested region tree stack verbatim) :
    ∀ id ∈ stack, ∃ el, tree.element? id = some el := by
  induction h with
  | nil =>
    intro id hid
    cases hid
  | outside _ hel _ _ ih => exact forall_mem_cons.mpr ⟨⟨_, hel⟩, ih⟩
  | opening _ hel _ _ ih => exact forall_mem_cons.mpr ⟨⟨_, hel⟩, ih⟩
  | inside _ hel _ _ ih => exact forall_mem_cons.mpr ⟨⟨_, hel⟩, ih⟩

/-- The innermost open element is in a region exactly if the builder is. -/
theorem Nested.region_iff (h : Nested region tree (id :: stack) verbatim) :
    region id ↔ verbatim = true := by
  cases h with
  | outside hid => simp [hid]
  | opening hid => simp [hid]
  | inside hid => simp [hid]

/-- An element in whose parent a region goes on is in the region. -/
theorem Nested.of_parent {parent : NodeId} (h : Nested region tree (id :: parent :: stack) verbatim)
    (hp : region parent) : region id := by
  cases h with
  | outside _ _ _ rest => exact absurd (rest.region_iff.mp hp) Bool.false_ne_true
  | opening hid => exact hid
  | inside hid => exact hid

/-- What is left of a region when its innermost open element closes. -/
theorem Nested.tail {el : Element} (h : Nested region tree (id :: stack) verbatim)
    (hel : tree.element? id = some el) : Nested region tree stack (verbatim && !el.pre) := by
  cases h with
  | outside _ hel' hpre rest =>
    rw [Bool.false_and]
    exact rest
  | opening _ hel' hpre rest =>
    rw [hel] at hel'
    cases hel'
    rw [hpre]
    exact rest
  | inside _ hel' hpre rest =>
    rw [hel] at hel'
    cases hel'
    rw [hpre]
    exact rest

/-- The elements of verbatim regions have no dynamics. What they hold as children is in the region or
literal text. An element of a region that does not open it has its parent in it, what has its parent in
it belongs to it, and what is in it below an element outside of it opens it. -/
structure Verbatim (region : NodeId → Prop) (tree : Tree) (stack : List NodeId) (verbatim : Bool) :
    Prop where
  element : ∀ i, region i → ∃ el, tree.element? i = some el
  pre : ∀ i el, tree.element? i = some el → el.pre = true → region i
  inert : ∀ i el, tree.element? i = some el → region i → el.dynamics = {}
  child : ∀ i el, tree.element? i = some el → region i → ∀ c ∈ el.children,
    region c ∨ ∃ t, tree.node? c = some (.plain t)
  nested : Nested region tree stack verbatim
  bound : ∀ i el, tree.element? i = some el → ∀ j, el.parent = some j ∨ j ∈ el.children →
    j < tree.nodes.size
  outer : ∀ i el, tree.element? i = some el → region i → el.pre = false →
    ∃ p, el.parent = some p ∧ region p
  inner : ∀ i el p, tree.element? i = some el → el.parent = some p → region p → region i
  opening : ∀ i el, tree.element? i = some el → ¬ region i → ∀ c ∈ el.children, ∀ ce,
    tree.element? c = some ce → region c → ce.pre = true

namespace Verbatim

variable {f : Element → Element}

section

variable (h : tree.Verbatim region stack verbatim)
include h

theorem lt_size {i : NodeId} (hi : region i) : i < tree.nodes.size := by
  obtain ⟨el, hel⟩ := h.element i hi
  exact lt_size_of_element? hel

/-- A change of one element: what is new of its links has to fit. -/
theorem update (id : NodeId) (hpre : ∀ el, tree.element? id = some el → (f el).pre = el.pre)
    (hinert : ∀ el, tree.element? id = some el → region id → (f el).dynamics = {})
    (hparent : ∀ el, tree.element? id = some el → (f el).parent = el.parent ∨
      ∃ p, (f el).parent = some p ∧ p < tree.nodes.size ∧ (region p → region id) ∧
        (region id → el.pre = false → region p))
    (hchildren : ∀ el, tree.element? id = some el → ∀ c ∈ (f el).children, c ∈ el.children ∨
      c < tree.nodes.size ∧ (region id → region c ∨ ∃ t, tree.node? c = some (.plain t)) ∧
        (¬ region id → ∀ ce, tree.element? c = some ce → region c → ce.pre = true)) :
    (tree.update id f).Verbatim region stack verbatim := by
  have hlater {i : NodeId} {el : Element} (hel : tree.element? i = some el) :
      ∃ el', (tree.update id f).element? i = some el' ∧ el'.pre = el.pre := by
    rw [element?_update]
    split
    · rename_i hi
      subst hi
      rw [hel]
      exact ⟨f el, rfl, hpre el hel⟩
    · exact ⟨el, hel, rfl⟩
  have hbefore {i : NodeId} {el' : Element} (hel' : (tree.update id f).element? i = some el') :
      ∃ el, tree.element? i = some el ∧ el'.pre = el.pre := by
    rcases element?_update_cases hel' with hel | ⟨el, rfl, hel, rfl⟩
    · exact ⟨el', hel, rfl⟩
    · exact ⟨el, hel, hpre el hel⟩
  have hplain {c : NodeId} (hc : region c ∨ ∃ t, tree.node? c = some (.plain t)) :
      region c ∨ ∃ t, (tree.update id f).node? c = some (.plain t) := by
    refine hc.imp_right fun ⟨t, ht⟩ => ⟨t, ?_⟩
    rw [Tree.update]
    split
    · rename_i el hel
      rw [node?_set, if_neg, ht]
      rintro rfl
      rw [node?_of_element? hel] at ht
      cases ht
    · exact ht
  refine ⟨?_, ?_, ?_, ?_, ?_, ?_, ?_, ?_, ?_⟩
  · intro i hi
    obtain ⟨el, hel⟩ := h.element i hi
    exact (hlater hel).imp fun _ hel' => hel'.1
  · intro i el' hel' hp
    obtain ⟨el, hel, heq⟩ := hbefore hel'
    exact h.pre i el hel (heq ▸ hp)
  · intro i el' hel' hi
    rcases element?_update_cases hel' with hel | ⟨el, rfl, hel, rfl⟩
    · exact h.inert i el' hel hi
    · exact hinert el hel hi
  · intro i el' hel' hi c hc
    apply hplain
    rcases element?_update_cases hel' with hel | ⟨el, rfl, hel, rfl⟩
    · exact h.child i el' hel hi c hc
    · rcases hchildren el hel c hc with hc | ⟨-, hc, -⟩
      · exact h.child i el hel hi c hc
      · exact hc hi
  · exact h.nested.change (fun _ _ => Iff.rfl) fun i el hel => hlater hel
  · intro i el' hel' j hj
    rw [size_update]
    rcases element?_update_cases hel' with hel | ⟨el, rfl, hel, rfl⟩
    · exact h.bound i el' hel j hj
    · rcases hj with hj | hj
      · rcases hparent el hel with hsame | ⟨p, hp, hlt, -⟩
        · exact h.bound i el hel j (.inl (hsame ▸ hj))
        · rw [hp] at hj
          cases hj
          exact hlt
      · rcases hchildren el hel j hj with hj | ⟨hlt, -⟩
        · exact h.bound i el hel j (.inr hj)
        · exact hlt
  · intro i el' hel' hi hp
    rcases element?_update_cases hel' with hel | ⟨el, rfl, hel, rfl⟩
    · exact h.outer i el' hel hi hp
    · rw [hpre el hel] at hp
      rcases hparent el hel with hsame | ⟨p, hp', -, -, hregion⟩
      · rw [hsame]
        exact h.outer i el hel hi hp
      · exact ⟨p, hp', hregion hi hp⟩
  · intro i el' p hel' hp hregion
    rcases element?_update_cases hel' with hel | ⟨el, rfl, hel, rfl⟩
    · exact h.inner i el' p hel hp hregion
    · rcases hparent el hel with hsame | ⟨q, hq, -, hinto, -⟩
      · exact h.inner i el p hel (hsame ▸ hp) hregion
      · rw [hq] at hp
        cases hp
        exact hinto hregion
  · intro i el' hel' hi c hc ce hce hregion
    obtain ⟨ce', hce', heq⟩ := hbefore hce
    rw [heq]
    rcases element?_update_cases hel' with hel | ⟨el, rfl, hel, rfl⟩
    · exact h.opening i el' hel hi c hc ce' hce' hregion
    · rcases hchildren el hel c hc with hc | ⟨-, -, hc⟩
      · exact h.opening i el hel hi c hc ce' hce' hregion
      · exact hc hi ce' hce' hregion

/-- A change that leaves the parent alone and brings no children. -/
theorem shrink (id : NodeId)
    (hf : ∀ el, tree.element? id = some el → (f el).pre = el.pre ∧ (f el).parent = el.parent ∧
      (f el).children ⊆ el.children)
    (hinert : ∀ el, tree.element? id = some el → region id → el.dynamics = {} →
      (f el).dynamics = {}) : (tree.update id f).Verbatim region stack verbatim :=
  h.update id (fun el hel => (hf el hel).1)
    (fun el hel hid => hinert el hel hid (h.inert id el hel hid)) (fun el hel => .inl (hf el hel).2.1)
    fun el hel _ hc => .inl ((hf el hel).2.2 hc)

theorem not_region_size : ¬ region tree.nodes.size := fun hr => Nat.lt_irrefl _ (h.lt_size hr)

/-- A new element, which may belong to a region. -/
theorem add {el : Element} {inside : Prop} (hpre : el.pre = true → inside)
    (hinert : inside → el.dynamics = {}) (hnone : inside → el.children = [])
    (hparent : ∀ p, el.parent = some p → p < tree.nodes.size ∧ (region p → inside))
    (houter : inside → el.pre = false → ∃ p, el.parent = some p ∧ region p)
    (hchildren : ∀ c ∈ el.children, c < tree.nodes.size ∧ (¬ inside → ∀ ce,
      tree.element? c = some ce → region c → ce.pre = true)) :
    (tree.add (.element el)).2.Verbatim (fun i => region i ∨ i = tree.nodes.size ∧ inside) stack
      verbatim := by
  have hkept {i : NodeId} {e : Element} (he : tree.element? i = some e) :
      (tree.add (.element el)).2.element? i = some e := by
    rw [element?_add, if_neg (Nat.ne_of_lt (lt_size_of_element? he)), he]
  have hcases {i : NodeId} {e : Element} (he : (tree.add (.element el)).2.element? i = some e) :
      i = tree.nodes.size ∧ e = el ∨ i < tree.nodes.size ∧ tree.element? i = some e := by
    rcases element?_add_cases he with ⟨hi, he⟩ | ⟨-, he⟩
    · exact .inl ⟨hi, (Option.some.inj he).symm⟩
    · exact .inr ⟨lt_size_of_element? he, he⟩
  have hold {i : NodeId} (hi : i < tree.nodes.size) :
      region i ∨ i = tree.nodes.size ∧ inside ↔ region i :=
    or_iff_left fun hi' => absurd hi'.1 (Nat.ne_of_lt hi)
  have hnew : region tree.nodes.size ∨ tree.nodes.size = tree.nodes.size ∧ inside ↔ inside :=
    ⟨fun hr => (hr.resolve_left h.not_region_size).2, fun hin => .inr ⟨rfl, hin⟩⟩
  have hpart {c : NodeId} {ce : Element} (hc : c < tree.nodes.size)
      (hce : (tree.add (.element el)).2.element? c = some ce) : tree.element? c = some ce :=
    ((hcases hce).resolve_left fun hc' => Nat.ne_of_lt hc hc'.1).2
  refine ⟨?_, ?_, ?_, ?_, ?_, ?_, ?_, ?_, ?_⟩
  · rintro i (hi | ⟨rfl, -⟩)
    · exact (h.element i hi).imp fun _ he => hkept he
    · exact ⟨el, by rw [element?_add, if_pos rfl]; rfl⟩
  · intro i e he hp
    rcases hcases he with ⟨rfl, rfl⟩ | ⟨-, he⟩
    · exact .inr ⟨rfl, hpre hp⟩
    · exact .inl (h.pre i e he hp)
  · intro i e he hi
    rcases hcases he with ⟨rfl, rfl⟩ | ⟨hlt, he⟩
    · exact hinert (hnew.mp hi)
    · exact h.inert i e he ((hold hlt).mp hi)
  · intro i e he hi c hc
    rcases hcases he with ⟨rfl, rfl⟩ | ⟨hlt, he⟩
    · rw [hnone (hnew.mp hi)] at hc
      cases hc
    · rcases h.child i e he ((hold hlt).mp hi) c hc with hc | ⟨t, ht⟩
      · exact .inl (.inl hc)
      · exact .inr ⟨t, by rw [node?_add, if_neg (Nat.ne_of_lt (lt_size_of_node? ht)), ht]⟩
  · refine h.nested.change (fun i hi => hold ?_) fun i e he => ⟨e, hkept he, rfl⟩
    obtain ⟨e, he⟩ := h.nested.element i hi
    exact lt_size_of_element? he
  · intro i e he j hj
    rw [size_add]
    refine Nat.lt_succ_of_lt ?_
    rcases hcases he with ⟨rfl, rfl⟩ | ⟨-, he⟩
    · exact hj.elim (fun hj => (hparent j hj).1) fun hj => (hchildren j hj).1
    · exact h.bound i e he j hj
  · intro i e he hi hp
    rcases hcases he with ⟨rfl, rfl⟩ | ⟨hlt, he⟩
    · exact (houter (hnew.mp hi) hp).imp fun _ hout => ⟨hout.1, .inl hout.2⟩
    · exact (h.outer i e he ((hold hlt).mp hi) hp).imp fun _ hout => ⟨hout.1, .inl hout.2⟩
  · intro i e p he hp hregion
    rcases hcases he with ⟨rfl, rfl⟩ | ⟨-, he⟩
    · obtain ⟨hlt, hinside⟩ := hparent p hp
      exact hnew.mpr (hinside ((hold hlt).mp hregion))
    · rw [hold (h.bound i e he p (.inl hp))] at hregion
      exact .inl (h.inner i e p he hp hregion)
  · intro i e he hi c hc ce hce hregion
    rcases hcases he with ⟨rfl, rfl⟩ | ⟨hlt', he⟩
    · obtain ⟨hlt, hopening⟩ := hchildren c hc
      exact hopening (mt hnew.mpr hi) ce (hpart hlt hce) ((hold hlt).mp hregion)
    · have hlt := h.bound i e he c (.inr hc)
      exact h.opening i e he (mt (hold hlt').mpr hi) c hc ce (hpart hlt hce) ((hold hlt).mp hregion)

/-- The root has no part in regions. -/
theorem of_nodes {later : Tree} (hnodes : later.nodes = tree.nodes) :
    later.Verbatim region stack verbatim := by
  obtain ⟨nodes, root⟩ := later
  cases hnodes
  exact { h with
    nested := h.nested.change (fun _ _ => Iff.rfl) fun id el hel => ⟨el, hel, rfl⟩ }

/-- Moving elements that open regions, or lie outside of them, to a parent outside. -/
theorem foldl_parent {p : NodeId} (hp : p < tree.nodes.size) (hout : ¬ region p) (ids : List NodeId)
    (hids : ∀ c ∈ ids, ∀ ce, tree.element? c = some ce → region c → ce.pre = true) :
    (ids.foldl (fun tree c => tree.update c fun e => { e with parent := some p })
      tree).Verbatim region stack verbatim := by
  induction ids generalizing tree with
  | nil => exact h
  | cons c ids ih =>
    have hmoved : (tree.update c fun e => { e with parent := some p }).Verbatim region stack
        verbatim := by
      refine h.update c (fun _ _ => rfl) (fun el hel hc => h.inert c el hel hc)
        (fun el hel => .inr ⟨p, rfl, hp, fun hr => absurd hr hout, ?_⟩) fun _ _ _ hc => .inl hc
      intro hr hpre
      rw [hids c mem_cons_self el hel hr] at hpre
      cases hpre
    refine ih hmoved (by rw [size_update]; exact hp) fun d hd de hde hr => ?_
    rcases element?_update_cases hde with hde | ⟨e, rfl, he, rfl⟩
    · exact hids d (mem_cons_of_mem c hd) de hde hr
    · exact hids d mem_cons_self e he hr

end

end Verbatim

end Tree

namespace Builder

open ViewTemplate.Tree

variable {b : Builder} {region : NodeId → Prop} {options : Options} {stack : List NodeId}
  {verbatim : Bool}

/-! ## Where the builder stands -/

theorem inVerbatim_trimChildren (id : NodeId) (b : Builder) :
    (b.trimChildren id).inVerbatim = b.inVerbatim := rfl

theorem inVerbatim_opened (options : Options) (tag : String) (attributes : List Attribute)
    (range : Range) (b : Builder) :
    (b.opened options tag attributes range).inVerbatim =
      (b.enter options (b.newElement options tag attributes range).value).value.2.inVerbatim :=
  congrArg (·.2.1) (standing_claimRoot _ _ _)

/-! ## Closing an element -/

theorem verbatim_trimChildren (h : b.tree.Verbatim region stack verbatim) (id : NodeId) :
    (b.trimChildren id).tree.Verbatim region stack verbatim := by
  refine h.shrink id (fun el _ => ⟨rfl, rfl, fun c hc => ?_⟩) fun _ _ _ hinert => hinert
  have hc := (dropWhile_sublist _).subset (mem_reverse.mp hc)
  exact mem_reverse.mp hc

/-- The container of slot content stands between a component and its content, all of it outside of
regions or opening one. -/
theorem verbatim_fillUse {tree : Tree} (h : tree.Verbatim region stack verbatim) {id : NodeId}
    (hid : ¬ region id) (use : Option SlotUse) :
    (fillUse id use tree).Verbatim region stack verbatim := by
  cases use with
  | none => exact h
  | some use =>
    rw [fillUse]
    cases hel : tree.element? id with
    | none =>
      rw [fillSlot, hel]
      exact h
    | some el =>
      rw [fillSlot_eq hel]
      have hinside {c : NodeId} (hc : c ∈ slotInside tree el) : c ∈ el.children :=
        (mem_filter.mp hc).1
      have hadd : (tree.add (.element
          (slotContainer use id (slotInside tree el)))).2.Verbatim region stack
          verbatim := by
        have hnew : (tree.add (.element
            (slotContainer use id (slotInside tree el)))).2.Verbatim (fun i =>
              region i ∨ i = tree.nodes.size ∧ False) stack verbatim := by
          refine h.add Bool.false_ne_true False.elim False.elim ?_ False.elim fun c hc => ?_
          · rintro p hp
            cases hp
            exact ⟨lt_size_of_element? hel, hid⟩
          · exact ⟨h.bound id el hel c (.inr (hinside hc)), fun _ =>
              h.opening id el hel hid c (hinside hc)⟩
        simpa only [and_false, or_false] using hnew
      have hmove := hadd.foldl_parent (p := tree.nodes.size)
        (by rw [size_add]; exact Nat.lt_succ_self _) h.not_region_size (slotInside tree el)
        fun c hc ce hce hr => by
          have hlt := h.bound id el hel c (.inr (hinside hc))
          rw [element?_add, if_neg (Nat.ne_of_lt hlt)] at hce
          exact h.opening id el hel hid c (hinside hc) ce hce hr
      exact hmove.shrink id (fun _ _ => ⟨rfl, rfl, nil_subset _⟩) fun _ _ hin => absurd hin hid

section Places

variable {tree : Tree}

theorem verbatim_addBranch (h : tree.Verbatim region stack verbatim) (holder : NodeId)
    (branch : Branch) :
    (tree.update holder (addBranch branch)).Verbatim region stack verbatim := by
  refine h.shrink holder (fun _ _ => ⟨rfl, rfl, List.Subset.refl _⟩) fun el _ _ hinert => ?_
  rw [addBranch_of_none (congrArg Dynamics.choice hinert :)]
  exact hinert

/-- An element and its parent are in a region together, unless the element opens it. -/
theorem verbatim_placeChild {id parent : NodeId} {el : Element}
    (h : tree.Verbatim region (id :: parent :: stack) verbatim) (hel : tree.element? id = some el) :
    (placeChild id el parent tree).Verbatim region (id :: parent :: stack) verbatim := by
  obtain ⟨p, hp⟩ := h.nested.element parent (mem_cons_of_mem id mem_cons_self)
  have hinto : region parent → region id := h.nested.of_parent
  have hopens (hin : region id) : el.pre = true ∨ region parent := by
    cases h.nested with
    | outside hout => exact absurd hin hout
    | opening _ hel' hpre =>
      rw [hel] at hel'
      cases hel'
      exact .inl hpre
    | inside _ _ _ rest => exact .inr (rest.region_iff.mpr rfl)
  have hfirst := h.update parent (f := fun p => { p with
      children := p.children ++ [id]
      scopedSlots := if el.slotScope.isSome then
        p.scopedSlots.insert (el.slotTarget.getD defaultSlot) id else p.scopedSlots })
    (fun _ _ => rfl) ?_ (fun _ _ => .inl rfl) ?_
  · refine hfirst.update id (fun _ _ => rfl) (fun e he hin => hfirst.inert id e he hin) (fun q hq => ?_)
      fun _ _ _ hc => .inl hc
    refine .inr ⟨parent, rfl, by rw [size_update]; exact lt_size_of_element? hp, hinto,
      fun hin hpre => (hopens hin).resolve_left fun hopen => ?_⟩
    have hsame : q.pre = el.pre := by
      rcases element?_update_cases hq with hold | ⟨old, rfl, hold, rfl⟩
      all_goals
        rw [hel] at hold
        cases hold
        rfl
    exact Bool.false_ne_true (hpre.symm.trans (hsame.trans hopen))
  · intro q hq hin
    have hinert := h.inert parent q hq hin
    have hchild := h.inert id el hel (hinto hin)
    have hnone : el.slotScope = none := congrArg Dynamics.slotScope hchild
    rw [hnone]
    exact hinert
  · intro q _ c hc
    rcases mem_append.mp hc with hc | hc
    · exact .inl hc
    · rw [mem_singleton.mp hc]
      refine .inr ⟨lt_size_of_element? hel, fun hin => .inl (hinto hin), fun hout ce hce hin => ?_⟩
      rw [hel] at hce
      cases hce
      exact (hopens hin).resolve_right hout

theorem verbatim_place {b : Builder} {id : NodeId}
    (h : b.tree.Verbatim region (id :: b.stack) verbatim) :
    (b.place id).value.tree.Verbatim region (id :: b.stack) verbatim := by
  refine of_place (P := (·.Verbatim region (id :: b.stack) verbatim)) h
    (fun parent _ => h.shrink parent (fun p hp => ⟨rfl, rfl, (untilElement_sublist hp).subset⟩)
      fun _ _ _ hinert => hinert)
    (fun holder branch htree => verbatim_addBranch htree holder branch)
    fun el parent hel hparent => ?_
  obtain ⟨rest, hrest⟩ := head?_eq_some_iff.mp hparent
  rw [hrest] at h ⊢
  exact verbatim_placeChild h hel

end Places

section Hooks

variable {b : Builder} {id : NodeId} (hspares : ∀ x ∈ options.extensions, x.SparesVerbatim)
include hspares

theorem verbatim_finishReading (h : b.tree.Verbatim region (id :: stack) b.inVerbatim) :
    (b.finishReading options id).value.tree.Verbatim region (id :: stack) b.inVerbatim := by
  rw [finishReading]
  split
  · exact h
  · rename_i hread
    simp only [Bool.or_eq_true, not_or, Bool.not_eq_true] at hread
    have hid : ¬ region id := by
      rw [h.nested.region_iff, hread.1]
      exact Bool.false_ne_true
    obtain ⟨el, hel⟩ := h.nested.element id mem_cons_self
    obtain ⟨placed, use, loopItems, hframe, hvalue, -⟩ := value_readElement options hel
    show (readElement options id b.tree).value.Verbatim region (id :: stack) b.inVerbatim
    rw [hvalue, set_eq_update hel]
    have hplaced : (b.tree.update id fun _ => placed).Verbatim region (id :: stack)
        b.inVerbatim := by
      refine h.shrink id (fun e he => ?_) fun _ _ hin => absurd hin hid
      rw [hel] at he
      cases he
      refine ⟨(congrArg Frame.pre hframe :), (congrArg Frame.parent hframe :), ?_⟩
      rw [show placed.children = el.children from (congrArg Frame.children hframe :)]
      exact List.Subset.refl _
    refine (verbatim_fillUse hplaced hid use).shrink id (fun e _ => ?_) fun _ _ hin => absurd hin hid
    have hsame := links_readContent (fun x hx => (hspares x hx).links) loopItems e
    refine ⟨readContent_keeps (f := Frame.pre) (fun x hx => (hspares x hx).pre) loopItems e,
      congrArg Element.Links.parent hsame, ?_⟩
    rw [show (readContent options loopItems e).value.children = e.children from
      congrArg Element.Links.children hsame]
    exact List.Subset.refl _

theorem verbatim_finishElement (h : b.tree.Verbatim region (id :: b.stack) b.inVerbatim) :
    (b.finishElement options id).value.tree.Verbatim region b.stack
      (b.finishElement options id).value.inVerbatim := by
  have hpre := leftAs_keeps (fun el => el.pre) fun x hx => (hspares x hx).pre.afterPlacement
  have hsame := leftAs_keeps links fun x hx => (hspares x hx).links.links.afterPlacement
  have hleft : (b.tree.update id (leftAs options)).Verbatim region (id :: b.stack)
      b.inVerbatim := by
    refine h.shrink id (fun el _ => ⟨hpre el, congrArg Element.Links.parent (hsame el), ?_⟩) ?_
    · rw [show (leftAs options el).children = el.children from
        congrArg Element.Links.children (hsame el)]
      exact List.Subset.refl _
    · intro el _ _ hinert
      exact (leftAs_keeps dynamics (fun x hx => (hspares x hx).afterPlacement) el).trans hinert
  obtain ⟨el, hel⟩ := h.nested.element id mem_cons_self
  have hmode : (b.finishElement options id).value.inVerbatim = (b.inVerbatim && !el.pre) := by
    rw [finishElement, hel]
    rfl
  have hlater : (b.tree.update id (leftAs options)).element? id = some (leftAs options el) := by
    rw [element?_update, if_pos rfl, hel]
    rfl
  have hrest := hleft.nested.tail hlater
  rw [hpre el] at hrest
  rw [tree_finishElement, hmode]
  exact { hleft with nested := hrest }

/-- The element of a start tag is in a region exactly if the builder is after it, and its own mark
is what brings the builder there. -/
theorem verbatim_entered (tag : String) (attributes : List Attribute) (range : Range)
    (b : Builder) :
    (b.opened options tag attributes range).inVerbatim =
        (b.inVerbatim || (b.entered options tag attributes range).pre) ∧
      (b.inVerbatim = true → (b.entered options tag attributes range).pre = false) ∧
      ((b.opened options tag attributes range).inVerbatim = true →
        (b.entered options tag attributes range).dynamics = {}) := by
  generalize hel : (b.newElement options tag attributes range).value = el
  have hpre : el.pre = false := by
    rw [← hel]
    exact newElement_keeps (fun el => el.pre) (fun x hx => (hspares x hx).pre.atStart) tag
      attributes range b
  have hdynamics : el.dynamics = {} := by
    rw [← hel]
    exact newElement_keeps dynamics (fun x hx => (hspares x hx).atStart) tag attributes range b
  have hopened := inVerbatim_opened options tag attributes range b
  have hentered : b.entered options tag attributes range = (b.enter options el).value.1 := by
    rw [entered, hel]
  rw [hopened, hentered, hel]
  simp only [enter, Reported.value_bind, Reported.value_pure]
  cases hv : b.inVerbatim with
  | true =>
    simp only [if_true, Bool.true_or, Reported.value_pure]
    exact ⟨trivial, fun _ => hpre, fun _ => hdynamics⟩
  | false =>
    simp only [Bool.false_eq_true, if_false, Bool.false_or, false_implies, true_and]
    cases hopens : el.readVerbatim.pre with
    | true =>
      simp only [if_true, Reported.value_pure]
      exact ⟨hopens.symm, fun _ => hdynamics⟩
    | false =>
      have hstructure : el.readVerbatim.readStructure.value.pre = el.readVerbatim.pre :=
        congrArg Frame.pre el.readVerbatim.frame_readStructure
      simp only [Bool.false_eq_true, if_false, Reported.value_ite]
      split
      · simp [hopens]
      · simp [hstructure, hopens]

/-- Closing an element leaves the region that it has opened, if any. -/
theorem verbatim_close (h : b.tree.Verbatim region (id :: b.stack) b.inVerbatim) :
    (b.close options id).value.tree.Verbatim region b.stack
      (b.close options id).value.inVerbatim := by
  have hread : ((b.trimChildren id).finishReading options id).value.tree.Verbatim region
      (id :: b.stack) b.inVerbatim := by
    have htrim := verbatim_trimChildren h id
    rw [← inVerbatim_trimChildren id b] at htrim ⊢
    exact verbatim_finishReading hspares htrim
  have hstack : ((b.trimChildren id).finishReading options id).value.stack = b.stack := rfl
  rw [← hstack] at hread
  have hplaced : (b.placed options id).tree.Verbatim region (id :: b.stack) b.inVerbatim := by
    refine verbatim_trimChildren ?_ id
    rw [← hstack]
    exact (verbatim_place hread).shrink id (fun _ _ => ⟨rfl, rfl, filter_sublist.subset⟩)
      fun _ _ _ hinert => hinert
  have hsame : (b.placed options id).standing = b.standing := standing_placed id b
  simp only [standing, Prod.mk.injEq] at hsame
  obtain ⟨hstanding, hmode, -⟩ := hsame
  rw [← hstanding, ← hmode] at hplaced
  rw [value_close, ← hstanding]
  exact verbatim_finishElement hspares hplaced

/-- The region after a start tag: its element is added to it if the builder is then in a region. -/
theorem verbatim_opened (h : b.tree.Verbatim region b.stack b.inVerbatim) (tag : String)
    (attributes : List Attribute) (range : Range) :
    (b.opened options tag attributes range).tree.Verbatim
      (fun i => region i ∨ i = b.tree.nodes.size ∧
        (b.opened options tag attributes range).inVerbatim = true)
      (b.tree.nodes.size :: b.stack) (b.opened options tag attributes range).inVerbatim := by
  obtain ⟨hverbatim, hinside, hinert⟩ := verbatim_entered hspares tag attributes range b
  obtain ⟨hparent, hheld⟩ := shape_entered (fun x hx => (hspares x hx).links) tag attributes range b
  generalize hel : b.entered options tag attributes range = el at *
  have hchildren : el.children = [] := by
    simp only [Shape.held, shape, append_eq_nil_iff] at hheld
    exact hheld.1.1
  have hhead {p : NodeId} (hp : b.stack.head? = some p) :
      p < b.tree.nodes.size ∧ (region p ↔ b.inVerbatim = true) := by
    obtain ⟨rest, hrest⟩ := head?_eq_some_iff.mp hp
    have hnested := h.nested
    rw [hrest] at hnested
    obtain ⟨e, he⟩ := hnested.element p mem_cons_self
    exact ⟨lt_size_of_element? he, hnested.region_iff⟩
  have hadd := h.add (fun hp : el.pre = true => by rw [hverbatim, hp, Bool.or_true]) hinert
    (fun _ => hchildren)
    (fun p hp => by
      obtain ⟨hlt, hiff⟩ := hhead (hparent.symm.trans hp)
      exact ⟨hlt, fun hregion => by rw [hverbatim, hiff.mp hregion]; rfl⟩)
    (fun hin hpre => by
      -- an element that opens no region is in one only if the region was open before
      rw [hverbatim, hpre, Bool.or_false] at hin
      cases hstack : b.stack with
      | nil =>
        have hnested := h.nested
        rw [hstack, hin] at hnested
        cases hnested
      | cons p rest =>
        have hp : b.stack.head? = some p := by rw [hstack]; rfl
        exact ⟨p, hparent.trans hp, (hhead hp).2.mpr hin⟩)
    (by rw [hchildren]; exact forall_mem_nil _)
  have hnodes := nodes_opened options tag attributes range b
  rw [hel] at hnodes
  refine Verbatim.of_nodes ?_ hnodes
  have hnew : (b.tree.add (.element el)).2.element? b.tree.nodes.size = some el := by
    rw [element?_add, if_pos rfl]
    rfl
  refine { hadd with nested := ?_ }
  have hnested := hadd.nested
  generalize (b.opened options tag attributes range).inVerbatim = after at hverbatim hadd hnested ⊢
  cases hv : b.inVerbatim with
  | true =>
    rw [hv] at hnested hverbatim
    cases hverbatim
    exact .inside (.inr ⟨rfl, rfl⟩) hnew (hinside hv) hnested
  | false =>
    rw [hv] at hnested hverbatim
    rw [Bool.false_or] at hverbatim
    cases hp : el.pre with
    | true =>
      rw [hp] at hverbatim
      cases hverbatim
      exact .opening (.inr ⟨rfl, rfl⟩) hnew hp hnested
    | false =>
      rw [hp] at hverbatim
      cases hverbatim
      refine .outside ?_ hnew hp hnested
      rintro (hr | ⟨-, hr⟩)
      · exact h.not_region_size hr
      · cases hr

end Hooks

/-! ## Texts -/

theorem verbatim_appendNode {tree : Tree} {id : NodeId}
    (h : tree.Verbatim region (id :: stack) verbatim) {node : Node}
    (hnode : node.element? = none) (hplain : verbatim = true → ∃ t, node = .plain t) :
    (appendNode id node tree).Verbatim region (id :: stack) verbatim := by
  have hadd : (tree.add node).2.Verbatim region (id :: stack) verbatim := by
    have hold {i : NodeId} {el : Element} :
        (tree.add node).2.element? i = some el ↔ tree.element? i = some el := by
      rw [element?_add]
      split
      · rename_i hi
        rw [hnode, hi]
        constructor
        · intro hel
          cases hel
        · intro hel
          exact absurd (lt_size_of_element? hel) (Nat.lt_irrefl _)
      · exact Iff.rfl
    refine ⟨?_, fun i el hel => h.pre i el (hold.mp hel), fun i el hel => h.inert i el (hold.mp hel),
      ?_, ?_, ?_, fun i el hel => h.outer i el (hold.mp hel),
      fun i el p hel => h.inner i el p (hold.mp hel), ?_⟩
    · exact fun i hi => (h.element i hi).imp fun _ hel => hold.mpr hel
    · intro i el hel hi c hc
      refine (h.child i el (hold.mp hel) hi c hc).imp_right ?_
      rintro ⟨t, ht⟩
      exact ⟨t, by rw [node?_add, if_neg (Nat.ne_of_lt (lt_size_of_node? ht)), ht]⟩
    · exact h.nested.change (fun _ _ => Iff.rfl) fun i el hel => ⟨el, hold.mpr hel, rfl⟩
    · intro i el hel j hj
      rw [size_add]
      exact Nat.lt_succ_of_lt (h.bound i el (hold.mp hel) j hj)
    · intro i el hel hi c hc ce hce
      exact h.opening i el (hold.mp hel) hi c hc ce (hold.mp hce)
  have hnew : (tree.add node).2.node? tree.nodes.size = some node := by
    rw [node?_add, if_pos rfl]
  refine hadd.update id (fun _ _ => rfl) (fun p hp hid => hadd.inert id p hp hid) (fun _ _ => .inl rfl)
    fun p _ c hc => ?_
  rcases mem_append.mp hc with hc | hc
  · exact .inl hc
  · rw [mem_singleton.mp hc]
    refine .inr ⟨by rw [size_add]; exact Nat.lt_succ_self _, fun hid => ?_, fun _ ce hce => ?_⟩
    · obtain ⟨t, rfl⟩ := hplain (h.nested.region_iff.mp hid)
      exact .inr ⟨t, hnew⟩
    · rw [element?_of_node? hnew, hnode] at hce
      cases hce

/-! ## Events -/

/-- The elements that are taken literally after an event: a start tag adds its own, if it leads to or
stays in verbatim mode. -/
def literalAfter (options : Options) (region : NodeId → Prop) (b : Builder) : Event → NodeId → Prop
  | .start tag attributes _ place, i =>
    region i ∨ i = b.tree.nodes.size ∧ (b.opened options tag attributes place).inVerbatim = true
  | _, i => region i

theorem literalAfter_of_ne {e : Event}
    (h : ∀ tag attributes unary range, e ≠ .start tag attributes unary range) :
    b.literalAfter options region e = region := by
  cases e with
  | start tag attributes unary place => exact absurd rfl (h tag attributes unary place)
  | finish | text | comment => rfl

section Hooks

variable (hspares : ∀ x ∈ options.extensions, x.SparesVerbatim) (template : String)
include hspares

/-- One event keeps what is known of verbatim regions. -/
theorem verbatim_step {b : Builder} (h : b.tree.Verbatim region b.stack b.inVerbatim)
    (e : Event) :
    (b.step options template e).value.tree.Verbatim (b.literalAfter options region e)
      (b.step options template e).value.stack (b.step options template e).value.inVerbatim := by
  have hsteps := steps_step options template b e
  generalize (b.step options template e).value = later at hsteps ⊢
  cases hsteps with
  | opens tag attributes place => exact verbatim_opened hspares h tag attributes place
  | closes hclosing =>
    rw [stack_close]
    refine verbatim_close hspares ?_
    cases hclosing with
    | unary tag attributes place =>
      rw [stack_opened]
      exact verbatim_opened hspares h tag attributes place
    | finish tag place hstack =>
      rw [hstack] at h
      exact h.shrink _ (fun _ _ => ⟨rfl, rfl, List.Subset.refl _⟩) fun _ _ _ hinert => hinert
  | appends he hid hnode hplain htree hstack hmode =>
    obtain ⟨rest, hrest⟩ := head?_eq_some_iff.mp hid
    rw [literalAfter_of_ne (by rcases he with rfl | rfl <;> exact nofun), htree, hstack, hmode, hrest]
    rw [hrest] at h
    exact verbatim_appendNode h hnode.element? hplain
  | stays _ hstart htree hstack hmode =>
    rw [literalAfter_of_ne hstart, htree, hstack, hmode]
    exact h

theorem verbatim_foldlM (events : List Event) {b : Builder}
    (h : b.tree.Verbatim region b.stack b.inVerbatim) :
    ∃ region', (events.foldlM (step options template) b).value.tree.Verbatim region'
      (events.foldlM (step options template) b).value.stack
      (events.foldlM (step options template) b).value.inVerbatim := by
  induction events generalizing b region with
  | nil => exact ⟨region, h⟩
  | cons e events ih =>
    rw [foldlM_cons, Reported.value_bind]
    exact ih (verbatim_step hspares template h e)

end Hooks

end Builder

namespace Tree

theorem verbatim_empty : ({} : Tree).Verbatim (fun _ => False) [] false := by
  have hnone {i : NodeId} {el : Element} (hel : ({} : Tree).element? i = some el) : False :=
    Nat.not_lt_zero i (lt_size_of_element? hel)
  exact ⟨fun _ h => h.elim, fun _ _ hel => (hnone hel).elim, fun _ _ _ h => h.elim,
    fun _ _ _ h => h.elim, .nil, fun _ _ hel => (hnone hel).elim, fun _ _ _ h => h.elim,
    fun _ _ _ _ _ h => h.elim, fun _ _ hel => (hnone hel).elim⟩

/-- The verbatim regions of the tree of a template. -/
theorem verbatim_ofTemplate {options : Options}
    (hspares : ∀ x ∈ options.extensions, x.SparesVerbatim) (template : String) :
    ∃ region, (ofTemplate options template).value.Verbatim region [] false := by
  obtain ⟨region, h⟩ := Builder.verbatim_foldlM (b := {}) hspares template
    (Markup.events (markupSettings options) template) verbatim_empty
  have hstack := Builder.stack_after_events options template
  refine ⟨region, ?_⟩
  rw [Builder.after] at hstack
  rw [hstack] at h
  exact { h with nested := .nil }

end Tree

end ViewTemplate

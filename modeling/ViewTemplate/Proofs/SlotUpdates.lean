import ViewTemplate.Compile
import ViewTemplate.Proofs.ElementSites
import ViewTemplate.Proofs.StaticSoundness

/-! # When the contents of slots are looked at again

The entry for the slots of an element says whether their contents are to be looked at whenever the owner
renders. There are four reasons for that: a loop on the owner, a slot that is named, chosen or repeated
while the code runs, an outlet among what a slot is filled with, and a scope around the owner. Outlets
are looked for among children only, and not in the later branches of a choice.
-/

open List

namespace ViewTemplate

open Relation

namespace Content

theorem holdsOutlet_of_element?_eq_none {c : Content} (h : c.element? = none) :
    c.holdsOutlet = false := by
  cases c with
  | plain id t => rfl
  | interpolated id t => rfl
  | element id el children branches slots => cases h

end Content

namespace Tree

/-- An outlet is among a node and its descendants by children. -/
def HoldsOutlet (tree : Tree) (i : NodeId) : Prop :=
  ∃ j outlet, ReflTransGen tree.HasChild i j ∧ tree.element? j = some outlet ∧ outlet.tag = "slot"

/-- A reason to look at the contents of slots whenever their owner renders. -/
inductive Restless (tree : Tree) (owner : Element) (slots : List NodeId) : Prop
  /-- The owner is repeated, -/
  | loop (h : owner.loop.isSome = true)
  /-- which slot is filled, or whether one is, is found when the code runs, -/
  | slot (v : NodeId) (slot : Element) (hv : v ∈ slots) (hslot : tree.element? v = some slot)
      (h : slot.slotTargetDynamic = true ∨ slot.choice.isSome = true ∨ slot.loop.isSome = true)
  /-- a slot is filled with what comes from another slot, -/
  | outlet (v : NodeId) (hv : v ∈ slots) (h : tree.HoldsOutlet v)
  /-- or there are variables in scope. -/
  | scope (a : Element) (ha : a ∈ tree.around owner) (h : Render.bringsScope a = true)

section

variable {ledger : Ledger} {tree : Tree} {opened : List NodeId} {i : NodeId} {el : Element}

theorem holdsOutlet_iff_of_element? (hel : tree.element? i = some el) :
    tree.HoldsOutlet i ↔ el.tag = "slot" ∨ ∃ c ∈ el.children, tree.HoldsOutlet c := by
  constructor
  · rintro ⟨j, outlet, hreach, hj, htag⟩
    rcases hreach.cases_head with rfl | ⟨c, ⟨el', hel', hc⟩, hreach⟩
    · rw [hel] at hj
      cases hj
      exact .inl htag
    · rw [hel] at hel'
      cases hel'
      exact .inr ⟨c, hc, j, outlet, hreach, hj, htag⟩
  · rintro (htag | ⟨c, hc, j, outlet, hreach, hj, htag⟩)
    · exact ⟨i, el, .refl, hel, htag⟩
    · exact ⟨j, outlet, .head ⟨el, hel, hc⟩ hreach, hj, htag⟩

/-- The search for an outlet goes through all children, however deep. -/
theorem Sound.holdsOutlet_content (h : tree.Sound ledger opened []) (i : NodeId) :
    (tree.content i).holdsOutlet = true ↔ tree.HoldsOutlet i := by
  obtain ⟨height, hground⟩ := h.exists_grounded
  -- Heights fall along links, so the children of a node come before it.
  induction hheight : height i using Nat.strong_induction_on generalizing i with
  | _ n ih =>
    cases hel : tree.element? i with
    | none =>
      rw [Content.holdsOutlet_of_element?_eq_none ((tree.element?_content i).trans hel)]
      refine iff_of_false Bool.false_ne_true ?_
      rintro ⟨j, outlet, hreach, hj, -⟩
      rcases hreach.cases_head with rfl | ⟨c, ⟨el, hel', -⟩, -⟩
      · cases hel.symm.trans hj
      · cases hel.symm.trans hel'
    | some el =>
      rw [holdsOutlet_iff_of_element? hel, h.content_element hel, Content.holdsOutlet,
        Content.anyHoldsOutlet_eq_any, Bool.or_eq_true, beq_iff_eq, List.any_map,
        List.any_eq_true]
      refine or_congr_right (exists_congr fun c => and_congr_right fun hc => ?_)
      have hlow := (hground.held i c (holds_child (node?_of_element? hel) hc)).2
      exact ih (height c) (hheight ▸ hlow) c rfl

end

end Tree

namespace Render

open ViewTemplate.Tree

/-- The slots are looked at whenever the owner renders, exactly if there is a reason to. -/
theorem slotUpdate_eq_always_iff {ledger : Ledger} {tree : Tree} {opened : List NodeId}
    (h : tree.Sound ledger opened []) (options : Options) (owner : Element) (slots : List NodeId) :
    slotUpdate (Scene.ofTree options tree) owner (slots.map (tree.renderingOf options)) = .always ↔
      tree.Restless owner slots := by
  have hvolatile (v : NodeId) : isVolatile (tree.renderingOf options v) = true ↔
      (∃ slot, tree.element? v = some slot ∧ (slot.slotTargetDynamic = true ∨
        slot.choice.isSome = true ∨ slot.loop.isSome = true)) ∨ tree.HoldsOutlet v := by
    rw [isVolatile, element?_renderingOf, renderingOf, content_rendering, Bool.or_eq_true,
      h.holdsOutlet_content, Option.any_eq_true]
    simp only [Bool.or_eq_true, or_assoc]
  have halways : slotUpdate (Scene.ofTree options tree) owner
        (slots.map (tree.renderingOf options)) = .always ↔
      owner.loop.isSome = true ∨ (∃ v ∈ slots, isVolatile (tree.renderingOf options v) = true) ∨
        ∃ a ∈ tree.around owner, bringsScope a = true := by
    have htree : (Scene.ofTree options tree).tree = tree := rfl
    rw [slotUpdate, List.any_map, htree]
    constructor
    · intro hupdate
      split at hupdate
      · rename_i hreason
        simpa only [Bool.or_eq_true, List.any_eq_true, or_assoc, Function.comp_apply] using hreason
      · split at hupdate <;> cases hupdate
    · intro hreason
      rw [if_pos]
      simpa only [Bool.or_eq_true, List.any_eq_true, or_assoc, Function.comp_apply] using hreason
  rw [halways]
  simp only [hvolatile]
  constructor
  · rintro (hloop | ⟨v, hv, ⟨slot, hslot, hkind⟩ | houtlet⟩ | ⟨a, ha, hscope⟩)
    · exact .loop hloop
    · exact .slot v slot hv hslot hkind
    · exact .outlet v hv houtlet
    · exact .scope a ha hscope
  · rintro (hloop | ⟨v, slot, hv, hslot, hkind⟩ | ⟨v, hv, houtlet⟩ | ⟨a, ha, hscope⟩)
    · exact .inl hloop
    · exact .inr (.inl ⟨v, hv, .inl ⟨slot, hslot, hkind⟩⟩)
    · exact .inr (.inl ⟨v, hv, .inr houtlet⟩)
    · exact .inr (.inr ⟨a, ha, hscope⟩)

/-- The entry asks to look at the slots whenever their owner renders. -/
def AsksAlways (entry : Code) : Prop :=
  ∃ codes : String, entry.print = "scopedSlots:_u([" ++ codes ++ "],null,true)"

/-- A number ends in a digit. -/
theorem reverse_toString (n : Nat) :
    ∃ c rest, (toString n).toList.reverse = c :: rest ∧ c.isDigit = true := by
  have hdigits : (toString n).toList = Nat.toDigits 10 n := Nat.toList_repr
  have hne : (toString n).toList.reverse ≠ [] := by
    rw [hdigits, ne_eq, reverse_eq_nil_iff]
    exact Nat.toDigits_ne_nil
  obtain ⟨c, rest, hrest⟩ := exists_cons_of_ne_nil hne
  have hc : c ∈ Nat.toDigits 10 n := by
    rw [← hdigits, ← mem_reverse, hrest]
    exact mem_cons_self
  exact ⟨c, rest, hrest, Nat.isDigit_of_mem_toDigits (by decide) (by decide) hc⟩

theorem asksAlways_slotsEntry_iff (scene : Scene) (owner : Element) (slots : List Rendering)
    (verbatim : Bool) (progress : Progress) :
    AsksAlways ((slotsEntry scene owner slots verbatim).run progress).value.1 ↔
      slotUpdate scene owner slots = .always := by
  generalize hcode : Code.join ","
    ((slots.mapM fun r : Rendering => r.slot verbatim).run progress).value.1 = code
  have hentry (entry : Code → Code) (h : slotsEntry scene owner slots verbatim =
      (fun codes => entry (Code.join "," codes)) <$> slots.mapM fun r => r.slot verbatim) :
      ((slotsEntry scene owner slots verbatim).run progress).value.1 = entry code := by
    rw [h, ← hcode]
    rfl
  cases hupdate : slotUpdate scene owner slots with
  | always =>
    rw [hentry (fun code => "scopedSlots:_u([" ++ code ++ "],null,true)") (by rw [slotsEntry, hupdate]; rfl)]
    exact iff_of_true ⟨code.print, rfl⟩ rfl
  | byKey =>
    rw [hentry (fun code => "scopedSlots:_u([" ++ code ++ "],null,false," ++
      toString (Text.fingerprint code.print).toNat ++ ")") (by rw [slotsEntry, hupdate]; rfl)]
    refine iff_of_false ?_ (by simp)
    rintro ⟨codes, hcodes⟩
    obtain ⟨c, rest, hrest, hdigit⟩ := reverse_toString (Text.fingerprint code.print).toNat
    have htexts : "scopedSlots:_u([" ++ code.print ++ "],null,false," ++
        toString (Text.fingerprint code.print).toNat ++ ")" =
          "scopedSlots:_u([" ++ codes ++ "],null,true)" := hcodes
    replace htexts := congrArg (fun text => text.toList.reverse) htexts
    simp only [String.toList_append, reverse_append] at htexts
    rw [hrest] at htexts
    have hc : c = 'e' := by
      simp only [String.reduceToList, reverse_cons, reverse_nil, nil_append,
        cons_append, List.cons.injEq, true_and] at htexts
      exact htexts.1
    rw [hc] at hdigit
    cases hdigit
  | never =>
    rw [hentry (fun code => "scopedSlots:_u([" ++ code ++ "])") (by rw [slotsEntry, hupdate]; rfl)]
    refine iff_of_false ?_ (by simp)
    rintro ⟨codes, hcodes⟩
    have htexts : "scopedSlots:_u([" ++ code.print ++ "])" =
        "scopedSlots:_u([" ++ codes ++ "],null,true)" := hcodes
    replace htexts := congrArg (fun text => text.toList.reverse) htexts
    simp at htexts

/-- The entry of the slots stands in the data of an element that has slots. -/
theorem Site.exists_slotsEntry (scene : Scene) (site : Site) (hslots : site.slots ≠ [])
    (verbatim : Bool) (progress : Progress) :
    ∃ before after,
      ((site.data scene verbatim).run progress).value.1 =
        withComputed (applyRules scene site.el.directives site.el).value.1 ("\x7b" ++ Code.join ","
          (before ++ ((slotsEntry scene (applyRules scene site.el.directives site.el).value.1
            site.slots verbatim).run progress).value.1 :: after) ++ "\x7d") := by
  obtain ⟨id, el, children, branches, slots⟩ := site
  obtain ⟨r, rs, rfl⟩ := exists_cons_of_ne_nil hslots
  rw [Site.data, dataCode_eq]
  show ∃ before after, dataObject scene id (applyRules scene el.directives el).value.1 _ (some _) _ = _
  rw [dataObject, append_assoc, append_assoc, Option.toList_some, singleton_append]
  exact ⟨_, _, rfl⟩

end Render

namespace Tree

open ViewTemplate.Render

/-- Whatever the template, the entry for the slots of an element asks to look at them whenever the owner
renders, exactly if there is a reason to. So it does where a slot is filled with an outlet, or with
anything that holds one among its descendants by children. -/
theorem asksAlways_iff_restless (options : Options) (template : String)
    (hlinks : ∀ x ∈ options.extensions, x.KeepsLinks) (tree : Tree)
    (htree : tree.IsOfTemplate options template) (i : NodeId) (el : Element)
    (hel : tree.element? i = some el) (hslots : el.scopedSlots.values ≠ []) (verbatim : Bool)
    (progress : Progress) :
    let scene := Scene.ofTree options tree
    let owner := (applyRules scene el.directives el).value.1
    tree.renderingOf options i = (tree.site options i el).rendering scene (tree.content i) ∧
      ∃ before entry after,
        (((tree.site options i el).data scene verbatim).run progress).value.1 =
          withComputed owner ("\x7b" ++ Code.join "," (before ++ entry :: after) ++ "\x7d") ∧
        (AsksAlways entry ↔ tree.Restless owner el.scopedSlots.values) := by
  intro scene owner
  obtain ⟨ledger, hsound⟩ := htree.exists_sound hlinks
  have hsite : (tree.site options i el).slots ≠ [] := fun hnil => hslots (map_eq_nil_iff.mp hnil)
  obtain ⟨before, after, hdata⟩ :=
    (tree.site options i el).exists_slotsEntry scene hsite verbatim progress
  refine ⟨hsound.renderingOf_eq hel, before, _, after, hdata, ?_⟩
  rw [asksAlways_slotsEntry_iff]
  exact slotUpdate_eq_always_iff hsound options owner el.scopedSlots.values

/-- An outlet two elements deep in what a slot is filled with. -/
theorem asksAlways_of_outlet_below :
    (∀ x ∈ Options.web.extensions, x.KeepsLinks) ∧
      ∃ tree el before entry after,
        tree.IsOfTemplate .web "<c><template v-slot:a><p><slot></slot></p></template></c>" ∧
        tree.element? 0 = some el ∧ el.scopedSlots.values = [1] ∧ tree.HoldsOutlet 1 ∧
        (((tree.site .web 0 el).data (Scene.ofTree .web tree) false).run {}).value.1 =
          withComputed (applyRules (Scene.ofTree .web tree) el.directives el).value.1
            ("\x7b" ++ Code.join "," (before ++ entry :: after) ++ "\x7d") ∧
        AsksAlways entry := by
  refine ⟨Extension.keepsLinks_web, ?_⟩
  generalize htree : (ofTemplate .web
    "<c><template v-slot:a><p><slot></slot></p></template></c>").value = tree
  have hfacts : (tree.element? 0).map (fun el => el.scopedSlots.values) = some [1] ∧
      (tree.element? 1).map Element.children = some [2] ∧
      (tree.element? 2).map Element.children = some [3] ∧
      (tree.element? 3).map Element.tag = some "slot" := by
    rw [← htree]
    decide +kernel
  simp only [Option.map_eq_some_iff] at hfacts
  obtain ⟨⟨el, hel, hslots⟩, ⟨slot, hslot, hfirst⟩, ⟨inner, hinner, hsecond⟩, outlet, houtlet,
    htag⟩ := hfacts
  have hholds : tree.HoldsOutlet 1 :=
    ⟨3, outlet, .head ⟨slot, hslot, hfirst ▸ .head _⟩ (.single ⟨inner, hinner, hsecond ▸ .head _⟩),
      houtlet, htag⟩
  have hof : tree.IsOfTemplate .web "<c><template v-slot:a><p><slot></slot></p></template></c>" :=
    .inl htree.symm
  obtain ⟨-, before, entry, after, hdata, hasks⟩ := asksAlways_iff_restless .web _
    Extension.keepsLinks_web tree hof 0 el hel (by rw [hslots]; exact cons_ne_nil 1 []) false {}
  refine ⟨tree, el, before, entry, after, hof, hel, hslots, hholds, hdata, hasks.mpr ?_⟩
  exact .outlet 1 (hslots ▸ .head _) hholds

/-- An outlet in the later branch of a choice is passed over. -/
theorem outlet_in_later_branch_not_asked :
    let template := "<c><template v-slot:a><p v-if='x'></p><slot v-else></slot></template></c>"
    let tree := (ofTemplate .web template).value
    (tree.element? 0).map (fun el => el.scopedSlots.values) = some [1] ∧
      (tree.element? 1).map Element.children = some [2] ∧
      (tree.element? 2).map (fun el => el.otherBranches.map Branch.block) = some [3] ∧
      (tree.element? 3).map Element.tag = some "slot" ∧
      (compile .web template).render =
        "with(this)\x7breturn _c('c',\x7bscopedSlots:_u([\x7bkey:\"a\",fn:function()\x7breturn " ++
          "[(x)?_c('p'):_t(\"default\")]\x7d,proxy:true\x7d])\x7d)\x7d" := by
  decide +kernel

end Tree

end ViewTemplate

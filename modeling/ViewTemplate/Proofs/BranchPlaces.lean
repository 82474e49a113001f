import ViewTemplate.Compile
import ViewTemplate.Proofs.EnclosingLoops
import ViewTemplate.Proofs.UnmarkedTree

/-! # Where the branches of a choice stand

All branches of a choice are written next to each other, so that the same elements are around each of
them. This stays so unless the children of a component become the content of a slot: then the first
branch is moved into a container, and the later ones, which hang on the first, keep the component as
their parent. A container brings no loop, no choice and no verbatim region, so that the scope of the
slot is all that a later branch misses.
-/

open Option

namespace ViewTemplate

open Element

namespace Tree

/-- The container around an element that was made to hold content of a slot. It is the only kind of
element that is written nowhere. -/
def container? (tree : Tree) (el : Element) : Option Element :=
  (el.parent.bind tree.element?).filter fun p => p.range.isNone

/-- A later branch has the parent of the first one, unless that is in a container. Around the first
one are the container and what is around the later one; loops, choices and verbatim regions are the
same around both. -/
structure Beside (tree : Tree) (el block : Element) : Prop where
  parent : block.parent = el.parent ↔ tree.container? el = none
  around : tree.around el = (tree.container? el).toList ++ tree.around block
  loops : (tree.around block).filterMap loop = (tree.around el).filterMap loop
  choices : (tree.around block).filterMap Element.choice = (tree.around el).filterMap Element.choice
  verbatim : (tree.around block).any pre = (tree.around el).any pre

section

variable {ledger : Ledger} {tree : Tree} {opened : List NodeId} {bound : Nat} {i : NodeId}
  {el : Element}

/-- More fuel than the way to the outside is long does not matter. -/
theorem ancestorsFrom_eq {depth : NodeId → Nat}
    (hdepth : ∀ i p, tree.HasParent i p → depth p < depth i) {parent : Option NodeId}
    {fuel fuel' : Nat} (hfuel : ∀ p ∈ parent, depth p < fuel) (hfuel' : ∀ p ∈ parent, depth p < fuel') :
    tree.ancestorsFrom fuel parent = tree.ancestorsFrom fuel' parent := by
  induction fuel generalizing parent fuel' with
  | zero =>
    cases parent with
    | none => cases fuel' <;> rfl
    | some p => exact absurd (hfuel p rfl) (Nat.not_lt_zero _)
  | succ fuel ih =>
    cases parent with
    | none => cases fuel' <;> rfl
    | some p =>
      have hp := hfuel p rfl
      have hp' := hfuel' p rfl
      obtain ⟨fuel', rfl⟩ := Nat.exists_eq_succ_of_ne_zero (Nat.ne_zero_of_lt hp')
      rw [ancestorsFrom, ancestorsFrom]
      cases hel : tree.element? p with
      | none => rfl
      | some el =>
        have hup (q : NodeId) (hq : q ∈ el.parent) : depth q < depth p :=
          hdepth p q ⟨el, hel, hq⟩
        have hrest : tree.ancestorsFrom fuel el.parent = tree.ancestorsFrom fuel' el.parent := by
          refine ih (fun q hq => ?_) (fun q hq => ?_)
          · exact Nat.lt_of_lt_of_le (hup q hq) (Nat.le_of_lt_succ hp)
          · exact Nat.lt_of_lt_of_le (hup q hq) (Nat.le_of_lt_succ hp')
        exact congrArg _ hrest

/-- Around an element is its parent, and then what is around that. -/
theorem Sound.around_eq_cons (h : tree.Sound ledger opened []) {p : NodeId} {outer : Element}
    (hp : el.parent = some p) (houter : tree.element? p = some outer) :
    tree.around el = outer :: tree.around outer := by
  obtain ⟨depth, hdepth, hbound⟩ := h.exists_depth
  have hlt := lt_size_of_element? houter
  obtain ⟨n, hn⟩ := Nat.exists_eq_succ_of_ne_zero (Nat.ne_zero_of_lt hlt)
  have hup (q : NodeId) (hq : q ∈ outer.parent) : depth q < n := by
    have hqp := hdepth p q ⟨outer, houter, hq⟩
    have hpn := hbound p hlt
    omega
  have hrest : tree.ancestorsFrom n outer.parent = tree.ancestorsFrom (n + 1) outer.parent :=
    ancestorsFrom_eq hdepth hup fun q hq => Nat.lt_succ_of_lt (hup q hq)
  rw [around, around, hp, hn, ancestorsFrom, houter, Nat.succ_eq_add_one, ← hrest]
  rfl

/-- What is around an element is told by its parent. -/
theorem around_congr {other : Element} (h : other.parent = el.parent) :
    tree.around other = tree.around el := by
  rw [around, around, h]

theorem start?_of_element? (hel : tree.element? i = some el) : tree.start? i = el.start? := by
  rw [start?, node?_of_element? hel]
  rfl

/-- Containers are told by the ledger and by where elements are written. -/
theorem Dated.range_isNone_iff (h : tree.Dated ledger bound) (hel : tree.element? i = some el) :
    el.range.isNone = true ↔ ledger.rank i ≠ 2 * i := by
  have hstarts := h.starts i (lt_size_of_element? hel)
  rw [start?_of_element? hel, Element.start?, isSome_map] at hstarts
  rw [Ne, ← hstarts]
  cases el.range <;> simp

/-- In a forest the later branches stand beside the first one, if what is written nowhere brings no
loop, no choice and no verbatim region. -/
theorem Sound.beside (h : tree.Sound ledger opened []) (hdated : tree.Dated ledger bound)
    (hmade : ∀ j made, tree.element? j = some made → made.range.isNone = true →
      made.loop = none ∧ made.choice = none ∧ made.pre = false)
    (hel : tree.element? i = some el) {b : Branch} (hb : b ∈ el.otherBranches) :
    ∃ block, tree.element? b.block = some block ∧ tree.Beside el block := by
  have hown := h.shapes i el.shape (shape?_of_element? hel)
  have hmem : b.block ∈ el.shape.blocks := List.mem_map_of_mem hb
  obtain ⟨-, -, t, ht⟩ := hown.block b.block hmem
  obtain ⟨block, hblock, rfl⟩ := map_eq_some_iff.mp ht
  refine ⟨block, hblock, ?_⟩
  rcases (hown.kin b.block hmem).2 _ ht with ⟨hsame, hregular⟩ | ⟨p, u, hp, hu, hsame⟩
  · -- the first branch is where it was written
    have hsame : block.parent = el.parent := hsame
    have hnone : tree.container? el = none := by
      refine filter_eq_none_iff.mpr fun outer houter hrange => ?_
      obtain ⟨p, hp, houter⟩ := bind_eq_some_iff.mp houter
      exact (hdated.range_isNone_iff houter).mp hrange (hregular p hp)
    have haround : tree.around block = tree.around el := around_congr hsame
    refine ⟨iff_of_true hsame hnone, ?_, by rw [haround], by rw [haround], by rw [haround]⟩
    rw [hnone, haround]
    rfl
  · -- the first branch has been moved
    have hp : el.parent = some p := hp
    obtain ⟨container, hcontainer, rfl⟩ := map_eq_some_iff.mp hu.shape
    have hsame : block.parent = container.parent := hsame
    have hrange := (hdated.range_isNone_iff hcontainer).mpr hu.rank
    have hsome : tree.container? el = some container := by
      rw [container?, hp, bind_some, hcontainer]
      exact filter_some_pos hrange
    have hne : block.parent ≠ el.parent := by
      rw [hsame, hp]
      intro hself
      exact Nat.lt_irrefl _ ((h.shapes p container.shape hu.shape).parent p hself).1
    obtain ⟨hloop, hchoice, hpre⟩ := hmade p container hcontainer hrange
    have haround : tree.around el = container :: tree.around block := by
      rw [h.around_eq_cons hp hcontainer, around_congr hsame]
    refine ⟨iff_of_false hne (by rw [hsome]; exact some_ne_none _), ?_, ?_, ?_, ?_⟩
    · rw [hsome, haround]
      rfl
    · rw [haround, List.filterMap_cons_none hloop]
    · rw [haround, List.filterMap_cons_none hchoice]
    · rw [haround, List.any_cons, hpre, Bool.false_or]

end

/-- What is written nowhere brings no loop, no choice and no verbatim region. -/
theorem bare_of_range_isNone {options : Options}
    (hidentity : ∀ x ∈ options.extensions, x.Keeps Element.identity) {template : String} {j : NodeId}
    {made : Element} (hmade : (ofTemplate options template).value.element? j = some made)
    (hrange : made.range.isNone = true) :
    made.loop = none ∧ made.choice = none ∧ made.pre = false := by
  -- an element of a start tag has a start, and a container has nothing
  let passes (identity : Identity) : Bool :=
    identity.start.isSome || (identity.loop.isNone && identity.guard.isNone && !identity.pre)
  have hstart : ∀ x ∈ options.extensions, x.Keeps Element.start? := fun x hx =>
    (hidentity x hx).map Identity.start
  have hpasses : Node.isPlainSeen true ((Node.element made).seen passes) := by
    have hcontainer : passes Identity.container = true := rfl
    refine seen_ofTemplate (fun x hx => (hidentity x hx).map passes) hcontainer ?_
      (node?_of_element? hmade)
    intro tag attributes unary range _ b
    have hentered : (b.entered options tag attributes range).identity.start = some range.start :=
      Builder.start?_entered hstart tag attributes range b
    simp only [passes, hentered, isSome_some, Bool.true_or]
  have hnone : made.identity.start = none := by
    show made.range.map Range.start = none
    rw [isNone_iff_eq_none.mp hrange]
    rfl
  simp only [Node.isPlainSeen, Node.seen, passes, hnone, isSome_none, Bool.false_or,
    Bool.and_eq_true, isNone_iff_eq_none, Bool.not_eq_true'] at hpasses
  exact ⟨hpasses.1.1, map_eq_none_iff.mp hpasses.1.2, hpasses.2⟩

/-- Every branch of a choice is the element that holds it or stands beside that, whatever the template,
as long as extensions change neither links nor what an element was written as. -/
theorem branches_stand_beside (options : Options) (template : String)
    (hlinks : ∀ x ∈ options.extensions, x.KeepsLinks)
    (hidentity : ∀ x ∈ options.extensions, x.Keeps Element.identity) (i : NodeId) (el : Element)
    (hel : (ofTemplate options template).value.element? i = some el) (b : Branch)
    (hb : b ∈ el.branches i) :
    ∃ block, (ofTemplate options template).value.element? b.block = some block ∧
      (b.block = i ∨ (ofTemplate options template).value.Beside el block) := by
  obtain ⟨ledger, hsound, hdated⟩ := exists_sound_ofTemplate hlinks template
  obtain ⟨bound, hdated⟩ := hdated fun x hx => (hidentity x hx).map Identity.start
  rw [branches] at hb
  cases hchoice : el.choice with
  | none =>
    rw [hchoice] at hb
    cases hb
  | some choice =>
    rw [hchoice] at hb
    rcases List.mem_cons.mp hb with rfl | hb
    · exact ⟨el, hel, .inl rfl⟩
    · have hother : b ∈ el.otherBranches := by
        rw [otherBranches, hchoice]
        exact hb
      obtain ⟨block, hblock, hbeside⟩ :=
        hsound.beside hdated (fun _ _ => bare_of_range_isNone hidentity) hel hother
      exact ⟨block, hblock, .inr hbeside⟩

/-- The last of three branches in a slot of a repeated component. -/
theorem branches_stand_beside_of_repeated_slot :
    (∀ x ∈ Options.web.extensions, x.KeepsLinks) ∧
      (∀ x ∈ Options.web.extensions, x.Keeps Element.identity) ∧
      ∃ tree el, (ofTemplate .web ("<ul><c v-for='n in m' v-slot='s'><p v-if='a'></p>" ++
          "<q v-else-if='b'></q> <i v-else></i></c></ul>")).value = tree ∧
        tree.element? 2 = some el ∧ ⟨none, 5⟩ ∈ el.branches 2 ∧
        ∃ block, tree.element? 5 = some block ∧ (5 = 2 ∨ tree.Beside el block) := by
  have hidentity : ∀ x ∈ Options.web.extensions, x.Keeps Element.identity := fun x hx =>
    (Extension.keeps_frame_web x hx).map Frame.identity
  have hbranches : ((ofTemplate .web ("<ul><c v-for='n in m' v-slot='s'><p v-if='a'></p>" ++
      "<q v-else-if='b'></q> <i v-else></i></c></ul>")).value.element? 2).map (fun el =>
        el.branches 2) = some [⟨some "a", 2⟩, ⟨some "b", 3⟩, ⟨none, 5⟩] := by
    decide +kernel
  obtain ⟨el, hel, hb⟩ := map_eq_some_iff.mp hbranches
  have hmem : ⟨none, 5⟩ ∈ el.branches 2 := by
    rw [hb]
    simp
  exact ⟨Extension.keepsLinks_web, hidentity, _, el, rfl, hel, hmem,
    branches_stand_beside .web _ Extension.keepsLinks_web hidentity 2 el hel ⟨none, 5⟩ hmem⟩

/-- In a slot the later branch has another parent than the first one, and so its own slots are not
looked at again where those of the first one are. -/
theorem later_branch_misses_container :
    ((ofTemplate .web "<c v-slot='s'><p v-if='a'></p><p v-else></p></c>").value.element? 1).map
        (fun el => (el.branches 1, el.parent)) = some ([⟨some "a", 1⟩, ⟨none, 2⟩], some 3) ∧
      ((ofTemplate .web "<c v-slot='s'><p v-if='a'></p><p v-else></p></c>").value.element? 2).map
        Element.parent = some (some 0) ∧
      (compile .web ("<c v-slot='s'><d v-if='a'><template v-slot:x>\x7b\x7bs\x7d\x7d</template></d>" ++
          "<d v-else><template v-slot:x>\x7b\x7bs\x7d\x7d</template></d></c>")).render =
        "with(this)\x7breturn _c('c',\x7bscopedSlots:_u([\x7bkey:\"default\",fn:function(s)\x7breturn " ++
          "[(a)?_c('d',\x7bscopedSlots:_u([\x7bkey:\"x\",fn:function()\x7breturn [_v(_s(s))]\x7d," ++
          "proxy:true\x7d],null,true)\x7d):_c('d',\x7bscopedSlots:_u([\x7bkey:\"x\",fn:function()" ++
          "\x7breturn [_v(_s(s))]\x7d,proxy:true\x7d])\x7d)]\x7d\x7d])\x7d)\x7d" := by
  refine ⟨?_, ?_, ?_⟩
  · decide +kernel
  · decide +kernel
  · decide +kernel

end Tree

end ViewTemplate

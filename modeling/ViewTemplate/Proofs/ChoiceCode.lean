import ViewTemplate.Proofs.StaticSoundness
import ViewTemplate.Proofs.WrittenChoices

/-! # The code of a choice

A choice is written as one expression that takes the first branch whose guard holds. Each branch is
generated once, in the order of the source; without a last resort the expression ends in an empty node.
-/

open List

namespace ViewTemplate

namespace Render

/-- The first code whose guard holds; without a guard a code always holds. -/
def ternary : List (Option String × Code) → Code
  | [] => "_e()"
  | (none, code) :: _ => code
  | (some guard, code) :: rest => "(" ++ guard ++ ")?" ++ code ++ ":" ++ ternary rest

/-- Where only the last guard may be missing, all branches are generated one after the other. -/
theorem choose_eq_mapM {guards : List (Option String)} (hlast : ElseLast guards)
    {codes : List (Generation Code)} (hlength : guards.length = codes.length) :
    choose "_e()" (guards.zip codes) =
      (do let written ← codes.mapM id
          pure (ternary (guards.zip written))) := by
  induction guards generalizing codes with
  | nil =>
    cases codes with
    | nil => rfl
    | cons code codes => cases hlength
  | cons guard guards ih =>
    cases codes with
    | nil => cases hlength
    | cons code codes =>
      cases guard with
      | none =>
        cases ElseLast.cons_none.mp hlast
        cases eq_nil_of_length_eq_zero (Nat.succ.inj hlength).symm
        simp [choose, ternary]
      | some guard =>
        rw [zip_cons_cons, choose, ih (ElseLast.cons_some.mp hlast) (Nat.succ.inj hlength)]
        simp [ternary]

/-- The code of a content inside all its wrappers. -/
def innermost (scene : Scene) : Content → Bool → Generation Code
  | .element id el children branches slots =>
    Site.inside scene
      { id, el, children := renderings scene children, branches := renderings scene branches
        slots := renderings scene slots }
  | content => (rendering scene content).node

/-- An element that is wrapped in a choice only. -/
theorem node_of_choice {scene : Scene} {id : NodeId} {el : Element}
    {children branches slots : List Content} {choice : Choice} (hchoice : el.choice = some choice)
    (hloop : el.loop = none) (honce : el.once = false) (hroot : el.staticRoot = false)
    (verbatim : Bool) :
    (rendering scene (.element id el children branches slots)).node verbatim =
      choose "_e()" ((some choice.guard,
        innermost scene (.element id el children branches slots) verbatim) ::
          (choice.others.map Branch.guard).zip
            (branches.map fun c => (rendering scene c).branch verbatim)) := by
  rw [rendering]
  show Site.wrapped scene _ {} verbatim = _
  simp only [Site.wrapped, hroot, honce, Site.withLoop, repeated, hloop, Site.withChoice, chosen,
    hchoice, Site.otherBranches, renderings_eq_map, List.map_map, innermost]
  rfl

/-- Unless it is rendered once, an element is written the same as a child and as a later branch. -/
theorem branch_eq_node {scene : Scene} {content : Content}
    (h : ∀ el ∈ content.element?, el.once = false) (verbatim : Bool) :
    (rendering scene content).branch verbatim = (rendering scene content).node verbatim := by
  cases content with
  | plain id t => rfl
  | interpolated id t => rfl
  | element id el children branches slots =>
    rw [rendering]
    show Site.branch scene _ verbatim = Site.wrapped scene _ {} verbatim
    rw [Site.branch, if_neg (by simp [h el rfl])]

end Render

namespace Tree

open ViewTemplate.Render

section

variable {ledger : Ledger} {tree : Tree} {opened : List NodeId} {options : Options} {i : NodeId}
  {el : Element}

/-- An element with a choice is not rendered apart, unless it opens a verbatim region. -/
theorem Sound.staticRoot_of_choice (h : tree.Sound ledger opened []) (hplain : tree.unmarked = tree)
    (hel : (tree.marked options).element? i = some el) (hchoice : el.choice.isSome = true)
    (hpre : el.pre = false) : el.staticRoot = false := by
  by_cases houter : tree.Outer i
  · obtain ⟨visited, inLoop, hpassed⟩ := h.exists_passed options houter
    refine Bool.eq_false_iff.mpr fun hroot => ?_
    have hstatic := ((h.roots_of_passed hplain hpassed hel).1.mp hroot).1
    have halone := (h.static_element hplain hel hstatic).1
    rw [Static.isStaticAlone, hpre, Bool.false_or] at halone
    simp only [Bool.and_eq_true, Option.isNone_iff_eq_none] at halone
    simp [halone.1.1.1.1.1.2] at hchoice
  · have hsame : tree.element? i = some el := by
      rw [← hel, element?, element?, h.node?_marked options houter]
    have hel' := element?_unmarked tree i
    rw [hplain, hsame, Option.map_some, Option.some.injEq] at hel'
    rw [hel']
    rfl

end

/-- The tree that code is generated from has the elements of the tree of the template, but for marks,
and those with a choice are not rendered apart. -/
theorem exists_sound_compileTrimmed {options : Options}
    (hweb : ∀ x ∈ options.extensions, x ∈ Options.web.extensions) (template : String) :
    (∃ ledger, (compileTrimmed options template).value.1.Sound ledger [] []) ∧
      ∀ i el, (ofTemplate options template).value.element? i = some el →
        ∃ el', (compileTrimmed options template).value.1.element? i = some el' ∧
          el'.unmarked = el.unmarked ∧
          (el.choice.isSome = true → el.pre = false → el'.staticRoot = false) := by
  obtain ⟨ledger, hsound, -⟩ := exists_sound_ofTemplate (Builder.keepsLinks_of_web hweb) template
  have hplain := unmarked_ofTemplate (fun x hx =>
    (Builder.keepsIdentity_of_web hweb x hx).map Element.Identity.marks) template
  have htree : (compileTrimmed options template).value.1 =
      if options.optimize then (ofTemplate options template).value.marked options
      else (ofTemplate options template).value := rfl
  rw [htree]
  cases options.optimize with
  | true =>
    refine ⟨⟨ledger, hsound.marked options⟩, fun i el hel => ?_⟩
    obtain ⟨el', hel', hsame⟩ := hsound.exists_marked options hel
    refine ⟨el', hel', hsame, fun hchoice hpre => hsound.staticRoot_of_choice hplain hel' ?_ ?_⟩
    · have hkept : el'.choice = el.choice := (congrArg Element.choice hsame :)
      rw [hkept]
      exact hchoice
    · exact (congrArg Element.pre hsame :).trans hpre
  | false =>
    refine ⟨⟨ledger, hsound⟩, fun i el hel => ⟨el, hel, rfl, fun _ _ => ?_⟩⟩
    have hel' := element?_unmarked (ofTemplate options template).value i
    rw [hplain, hel, Option.map_some, Option.some.injEq] at hel'
    rw [hel']
    rfl

end Tree

namespace WrittenChoice

open ViewTemplate.Tree ViewTemplate.Render

theorem exists_shows {tree : Tree} {ws : List Written} {ids : List NodeId}
    (h : Forall₂ tree.Shows ws ids) : ∀ j ∈ ids, ∃ w, tree.Shows w j := by
  induction h with
  | nil => exact fun j hj => absurd hj not_mem_nil
  | cons hshows _ ih => exact forall_mem_cons.mpr ⟨⟨_, hshows⟩, ih⟩

/-- A choice in the tree and in the code of a template, of which some events come before it. -/
structure InSourceOrder (options : Options) (template : String) (done : List Event)
    (c : WrittenChoice) : Prop where
  /-- The branches are in the tree as they were written, -/
  shown : Forall₂ (ofTemplate options template).value.Shows (c.first :: c.later.map Prod.snd)
    (c.firstId options template done :: c.laterIds options template done)
  /-- the first of them, and no other, as a child of the element around them. -/
  child : ∃ outer, (ofTemplate options template).value.element? (owner options template done) =
      some outer ∧ c.firstId options template done ∈ outer.children ∧
    ∀ j ∈ c.laterIds options template done, j ∉ outer.children
  /-- It lists all branches with their guards. -/
  branches : ∃ el, (ofTemplate options template).value.element? (c.firstId options template done) =
      some el ∧
    el.branches (c.firstId options template done) = zipWith Branch.mk c.guards
      (c.firstId options template done :: c.laterIds options template done)
  /-- Each branch is held once: the first by the element around them, the later ones by the first. -/
  held : (c.firstId options template done :: c.laterIds options template done).Nodup ∧
    (∀ q, (ofTemplate options template).value.Holds q (c.firstId options template done) ↔
      q = owner options template done) ∧
    ∀ j ∈ c.laterIds options template done, ∀ q,
      (ofTemplate options template).value.Holds q j ↔ q = c.firstId options template done
  /-- Its code is generated from that of each branch, one after the other, and takes the first whose
  guard holds. -/
  code : ∀ verbatim,
    let tree := (compileTrimmed options template).value.1
    let scene := Scene.ofTree options tree
    (rendering scene (tree.content (c.firstId options template done))).node verbatim =
      (do let codes ← (innermost scene (tree.content (c.firstId options template done)) verbatim ::
            (c.laterIds options template done).map fun j =>
              (rendering scene (tree.content j)).node verbatim).mapM id
          pure (ternary (c.guards.zip codes)))

section

variable {options : Options} {template : String} {done more : List Event} {c : WrittenChoice}
  (hweb : ∀ x ∈ options.extensions, x ∈ Options.web.extensions) (hc : c.IsRegular)
  (hevents : Markup.events (markupSettings options) template = done ++ c.events ++ more)
  (hmode : (ofTemplate options template).value.isVerbatim (owner options template done) = false)
include hweb hevents hmode hc

/-- The first branch with its guard and the list of the others. -/
theorem exists_choice : ∃ el choice,
    (ofTemplate options template).value.element? (c.firstId options template done) = some el ∧
    el.loop = none ∧ el.once = false ∧ el.pre = false ∧ el.choice = some choice ∧
    c.first.guard? = some choice.guard ∧
    choice.others.map Branch.guard = (c.later.map fun e => e.2.laterGuard?) ∧
    choice.others.map Branch.block = c.laterIds options template done := by
  have hshown := shows_branches hweb hc hevents hmode
  obtain ⟨⟨el, hel, -, -, hloop, honce, hpre⟩, hlater⟩ := forall₂_cons.mp hshown
  have hlength : (c.later.map fun e => e.2.laterGuard?).length =
      (c.laterIds options template done).length := by
    have hsame := hlater.length_eq
    rw [length_map] at hsame ⊢
    exact hsame
  have hbranches := branches_first hweb hc hevents hmode hel
  obtain ⟨guard, hguard⟩ := Option.isSome_iff_exists.mp hc.guarded
  rw [guards, hguard, zipWith_cons_cons, Element.branches] at hbranches
  cases hchoice : el.choice with
  | none =>
    rw [hchoice] at hbranches
    cases hbranches
  | some choice =>
    rw [hchoice] at hbranches
    obtain ⟨hhead, hothers⟩ := List.cons.inj hbranches
    have hguarded : some choice.guard = some guard := congrArg Branch.guard hhead
    refine ⟨el, choice, hel, hloop, honce, hpre, hchoice, hguard.trans hguarded.symm, ?_, ?_⟩
    · rw [hothers, ← map_uncurry_zip_eq_zipWith, List.map_map]
      exact map_fst_zip (Nat.le_of_eq hlength)
    · rw [hothers, ← map_uncurry_zip_eq_zipWith, List.map_map]
      exact map_snd_zip (Nat.le_of_eq hlength.symm)

/-- The later branches are held by the first one and by nothing else. -/
theorem held_later : (c.firstId options template done :: c.laterIds options template done).Nodup ∧
    ∀ j ∈ c.laterIds options template done, ∀ q,
      (ofTemplate options template).value.Holds q j ↔ q = c.firstId options template done := by
  obtain ⟨el, choice, hel, -, -, -, hchoice, -, -, hblocks⟩ := exists_choice hweb hc hevents hmode
  obtain ⟨ledger, hsound, -⟩ := exists_sound_ofTemplate (Builder.keepsLinks_of_web hweb) template
  have hothers : el.otherBranches.map Branch.block = c.laterIds options template done := by
    rw [Element.otherBranches, hchoice]
    exact hblocks
  have hholds (j : NodeId) (hj : j ∈ c.laterIds options template done) :
      (ofTemplate options template).value.Holds (c.firstId options template done) j := by
    rw [← hothers] at hj
    obtain ⟨b, hb, rfl⟩ := List.mem_map.mp hj
    exact holds_branch (node?_of_element? hel) hb
  refine ⟨nodup_cons.mpr ⟨fun hself => ?_, ?_⟩, fun j hj q => ⟨fun hq => ?_, ?_⟩⟩
  · exact Nat.lt_irrefl _ (hsound.rank_lt (hholds _ hself))
  · rw [← hothers]
    exact (hsound.shapes _ _ (shape?_of_element? hel)).blocks_nodup
  · exact hsound.owner_unique hq (hholds j hj)
  · rintro rfl
    exact hholds j hj

/-- The first branch is held by the element around the choice and by nothing else. -/
theorem held_first (q : NodeId) :
    (ofTemplate options template).value.Holds q (c.firstId options template done) ↔
      q = owner options template done := by
  obtain ⟨outer, houter, hchild⟩ := (plainChild_first hweb hc hevents hmode).child
  obtain ⟨ledger, hsound, -⟩ := exists_sound_ofTemplate (Builder.keepsLinks_of_web hweb) template
  have hholds := holds_child (node?_of_element? houter) hchild
  refine ⟨fun hq => hsound.owner_unique hq hholds, ?_⟩
  rintro rfl
  exact hholds

/-- Of the branches only the first is a child. -/
theorem exists_outer : ∃ outer, (ofTemplate options template).value.element?
      (owner options template done) = some outer ∧
    c.firstId options template done ∈ outer.children ∧
    ∀ j ∈ c.laterIds options template done, j ∉ outer.children := by
  obtain ⟨outer, houter, hchild⟩ := (plainChild_first hweb hc hevents hmode).child
  obtain ⟨ledger, hsound, -⟩ := exists_sound_ofTemplate (Builder.keepsLinks_of_web hweb) template
  refine ⟨outer, houter, hchild, fun j hj hmem => ?_⟩
  have hholds := holds_child (node?_of_element? houter) hmem
  have hsame := ((held_later hweb hc hevents hmode).2 j hj _).mp hholds
  have hlt := hsound.rank_lt (((held_first hweb hc hevents hmode) _).mpr rfl)
  rw [hsame] at hlt
  exact Nat.lt_irrefl _ hlt

/-- The code of the first branch is put together from that of all branches. -/
theorem node_first (verbatim : Bool) :
    let tree := (compileTrimmed options template).value.1
    let scene := Scene.ofTree options tree
    (rendering scene (tree.content (c.firstId options template done))).node verbatim =
      (do let codes ← (innermost scene (tree.content (c.firstId options template done)) verbatim ::
            (c.laterIds options template done).map fun j =>
              (rendering scene (tree.content j)).node verbatim).mapM id
          pure (ternary (c.guards.zip codes))) := by
  obtain ⟨el, choice, hel, hloop, honce, hpre, hchoice, hguard, hguards, hblocks⟩ :=
    exists_choice hweb hc hevents hmode
  obtain ⟨-, hshown⟩ := forall₂_cons.mp (shows_branches hweb hc hevents hmode)
  obtain ⟨⟨ledger, hsound⟩, hprepared⟩ := exists_sound_compileTrimmed hweb template
  generalize (compileTrimmed options template).value.1 = tree at hsound hprepared ⊢
  obtain ⟨marked, hmarked, hsame, hroot⟩ := hprepared _ el hel
  have hkept : marked.choice = some choice := (congrArg Element.choice hsame :).trans hchoice
  have hcontent := hsound.content_element hmarked
  have hlater : (marked.otherBranches.map fun b => tree.content b.block) =
      (c.laterIds options template done).map tree.content := by
    rw [Element.otherBranches, hkept, ← hblocks, List.map_map]
    rfl
  rw [hlater] at hcontent
  -- a later branch is written as a child would be
  have hbranch (j : NodeId) (hj : j ∈ c.laterIds options template done) :
      (rendering (Scene.ofTree options tree) (tree.content j)).branch verbatim =
        (rendering (Scene.ofTree options tree) (tree.content j)).node verbatim := by
    obtain ⟨w, shown, helj, -, -, -, honcej, -⟩ := exists_shows hshown j hj
    obtain ⟨el', hel', hsame', -⟩ := hprepared j shown helj
    refine branch_eq_node (fun e he => ?_) verbatim
    rw [hsound.content_element hel'] at he
    cases he
    exact (congrArg Element.once hsame' :).trans honcej
  have hlength : c.guards.length = (innermost (Scene.ofTree options tree)
      (tree.content (c.firstId options template done)) verbatim ::
        (c.laterIds options template done).map fun j =>
          (rendering (Scene.ofTree options tree) (tree.content j)).node verbatim).length := by
    have hsize := hshown.length_eq
    rw [length_map] at hsize
    simp only [guards, length_cons, length_map, hsize]
  have hlast : ElseLast c.guards := by
    rw [guards, hguard]
    exact ElseLast.cons_some.mpr hc.last
  show (rendering (Scene.ofTree options tree)
    (tree.content (c.firstId options template done))).node verbatim = _
  rw [← choose_eq_mapM hlast hlength, hcontent, node_of_choice hkept
    ((congrArg Element.loop hsame :).trans hloop) ((congrArg Element.once hsame :).trans honce)
    (hroot (by rw [hchoice]; rfl) hpre), guards, hguard, zip_cons_cons, hguards, List.map_map,
    ← map_congr_left hbranch]
  rfl

end

/-- A choice is compiled in the order of the source and takes the first branch whose guard holds,
wherever it stands in a template outside of verbatim regions. -/
theorem inSourceOrder_of_isRegular (options : Options)
    (hweb : ∀ x ∈ options.extensions, x ∈ Options.web.extensions) (template : String)
    (done more : List Event) (c : WrittenChoice) (hc : c.IsRegular)
    (hevents : Markup.events (markupSettings options) template = done ++ c.events ++ more)
    (hmode : (ofTemplate options template).value.isVerbatim (owner options template done) = false) :
    c.InSourceOrder options template done := by
  obtain ⟨el, -, hel, -⟩ := exists_choice hweb hc hevents hmode
  obtain ⟨hnodup, hheld⟩ := held_later hweb hc hevents hmode
  exact {
    shown := shows_branches hweb hc hevents hmode
    child := exists_outer hweb hc hevents hmode
    branches := ⟨el, hel, branches_first hweb hc hevents hmode hel⟩
    held := ⟨hnodup, held_first hweb hc hevents hmode, hheld⟩
    code := node_first hweb hc hevents hmode }

/-- A paragraph with a text, and with a choice of three branches of which the second holds another
choice. -/
def choiceInChoice : WrittenChoice where
  tag := "p"
  attributes := []
  range := ⟨5, 8⟩
  front := [.text "k" ⟨8, 9⟩]
  first :=
    { tag := "i", attributes := [{ name := "v-if", value := "x", range := some ⟨12, 20⟩ }]
      range := ⟨9, 21⟩, content := some ([], ⟨21, 25⟩), balanced := by decide }
  later := [
    ([.text " " ⟨25, 26⟩],
      { tag := "b", attributes := [{ name := "v-else-if", value := "y", range := some ⟨29, 42⟩ }]
        range := ⟨26, 43⟩
        content := some ([.start "s" [{ name := "v-if", value := "z", range := some ⟨46, 54⟩ }] false
          ⟨43, 55⟩, .finish "s" ⟨55, 59⟩], ⟨59, 63⟩)
        balanced := by decide }),
    ([],
      { tag := "u", attributes := [{ name := "v-else", value := "", range := some ⟨66, 72⟩ }]
        range := ⟨63, 74⟩, content := none, balanced := by decide })]
  rest := []
  place := ⟨74, 78⟩

/-- The choice in its template. -/
theorem inSourceOrder_of_choice_in_choice :
    let template :=
      "<div><p>k<i v-if='x'></i> <b v-else-if='y'><s v-if='z'></s></b><u v-else/></p></div>"
    (∀ x ∈ Options.web.extensions, x ∈ Options.web.extensions) ∧ choiceInChoice.IsRegular ∧
      Markup.events (markupSettings .web) template =
        [.start "div" [] false ⟨0, 5⟩] ++ choiceInChoice.events ++ [.finish "div" ⟨78, 84⟩] ∧
      (ofTemplate .web template).value.isVerbatim
        (owner .web template [.start "div" [] false ⟨0, 5⟩]) = false ∧
      choiceInChoice.InSourceOrder .web template [.start "div" [] false ⟨0, 5⟩] ∧
      choiceInChoice.guards = [some "x", some "y", none] := by
  intro template
  have hregular : choiceInChoice.IsRegular := by decide
  have hevents : Markup.events (markupSettings .web) template =
      [.start "div" [] false ⟨0, 5⟩] ++ choiceInChoice.events ++ [.finish "div" ⟨78, 84⟩] := by
    decide +kernel
  have hmode : (ofTemplate .web template).value.isVerbatim
      (owner .web template [.start "div" [] false ⟨0, 5⟩]) = false := by
    decide +kernel
  exact ⟨fun _ hx => hx, hregular, hevents, hmode,
    inSourceOrder_of_isRegular .web (fun _ hx => hx) template _ _ choiceInChoice hregular hevents hmode,
    by decide⟩

/-- An element that is left out does not end a choice, and an element with a guard of its own does not
join one. -/
theorem choice_goes_on_across_style :
    ((ofTemplate .web "<div><a v-if='x'></a><style></style><b v-else></b></div>").value.element? 1).map
        (fun el => el.branches 1) = some [⟨some "x", 1⟩, ⟨none, 3⟩] ∧
      (compile .web "<div><a v-if='x'></a><style></style><b v-else></b></div>").render =
        "with(this)\x7breturn _c('div',[(x)?_c('a'):_c('b')])\x7d" ∧
      ((ofTemplate .web "<div><a v-if='x'></a><b v-if='z' v-else-if='y'></b></div>").value.element?
        1).map (fun el => el.branches 1) = some [⟨some "x", 1⟩] ∧
      ((ofTemplate .web "<div><a v-if='x'></a><b v-if='z' v-else-if='y'></b></div>").value.element?
        2).map (fun el => el.branches 2) = some [⟨some "z", 2⟩] := by
  refine ⟨?_, ?_, ?_, ?_⟩
  · decide +kernel
  · decide +kernel
  · decide +kernel
  · decide +kernel

end WrittenChoice

end ViewTemplate

import ViewTemplate.Compile
import ViewTemplate.Proofs.CallOwners
import ViewTemplate.Proofs.EnclosingLoops
import ViewTemplate.Proofs.StaticSoundness

/-! # Rendering once inside a loop

An element that is rendered once has a function of its own, unless it lies in a loop: then it is
rendered once for each repetition, in place. Whether it lies in a loop is noted when static content is
marked, which is done for all that is reached from the root without entering a slot.
-/

open Option

namespace ViewTemplate

namespace Render

/-- What is written in place for an element that is rendered once inside a loop, besides its own code:
a number and the key of the loop. Without a key its code is written as it is, and that is reported. -/
def WrittenOnce (key : Option String) (range : Option Range) (code emitted : Generation Code) :
    Prop :=
  ∀ progress, match key with
    | some key => ∃ number : Nat, (emitted.run progress).value.1 =
        "_o(" ++ (code.run progress).value.1 ++ "," ++ toString number ++ "," ++ key ++ ")"
    | none => (emitted.run progress).value.1 = (code.run progress).value.1 ∧
        ⟨.onceInUnkeyedLoop, range, .error⟩ ∈ (emitted.run progress).notes

theorem writtenOnce_onceInLoop (scene : Scene) (el : Element) (code : Generation Code) :
    WrittenOnce (loopKey? scene el) (el.rangeOf "v-once") code (onceInLoop scene el code) := by
  intro progress
  rw [onceInLoop]
  cases loopKey? scene el with
  | some key => exact ⟨_, rfl⟩
  | none => exact ⟨rfl, List.mem_cons_self⟩

/-- The element of a site that is rendered once and is noted to lie in a loop, as a child and as a
later branch. -/
theorem rendering_once (scene : Scene) {site : Site} (content : Content)
    (honce : site.el.once = true) (hroot : site.el.staticRoot = false)
    (hloop : site.el.staticInLoop = true) (verbatim : Bool) :
    let emitted := onceInLoop scene site.el
      (site.withLoop scene {} (site.inside scene verbatim))
    (site.rendering scene content).node verbatim =
        chosen site.el "_e()" (site.otherBranches verbatim) emitted ∧
      (site.rendering scene content).branch verbatim =
        chosen site.el "_e()" (site.otherBranches verbatim) emitted := by
  intro emitted
  have hcode (apart : Bool) : site.once scene {} apart verbatim =
      chosen site.el "_e()" (site.otherBranches verbatim) emitted := by
    simp only [Site.once, hloop, hroot]
    rfl
  constructor
  · show site.wrapped scene {} verbatim = _
    rw [Site.wrapped, hroot, honce]
    exact hcode false
  · show site.branch scene verbatim = _
    rw [Site.branch, honce]
    exact hcode false

end Render

namespace Tree

open Render

section

variable {ledger : Ledger} {tree : Tree} {opened stack : List NodeId} {options : Options}
  {region : NodeId → Prop} {verbatim : Bool} {i : NodeId} {el outer : Element}
  (h : tree.Sound ledger opened []) (hplain : tree.unmarked = tree)
  (hverbatim : tree.Verbatim region stack verbatim) (honce : "once" ∉ Static.keys options)
include h hplain hverbatim honce

/-- What does not change is neither rendered once nor holds a choice. -/
theorem Sound.not_once_of_settled (hi : (tree.marked options).Settled region i)
    (hel : (tree.marked options).element? i = some el) : el.once = false ∧ el.choice = none := by
  have hregion (hi : region i) : el.once = false ∧ el.choice = none := by
    obtain ⟨el₀, hel₀, hsame⟩ := h.element?_marked hel
    have hdynamics : el.dynamics = el₀.dynamics := by
      have := congrArg Element.dynamics hsame
      exact this
    have hinert : el.dynamics = {} := hdynamics.trans (hverbatim.inert i el₀ hel₀ hi)
    exact ⟨congrArg Element.Dynamics.once hinert, congrArg Element.Dynamics.choice hinert⟩
  rcases hi with hi | ⟨t, ht⟩ | hstatic
  · exact hregion hi
  · rw [node?_of_element? hel] at ht
    cases ht
  · rw [isStaticNode, node?_of_element? hel] at hstatic
    cases hpre : el.pre with
    | true => exact hregion (h.region_of_pre hverbatim hel hpre)
    | false =>
      have halone := (h.static_element hplain hel hstatic).1
      simp only [Static.isStaticAlone, hpre, Bool.false_or, Bool.and_eq_true,
        isNone_iff_eq_none, List.all_eq_true, List.contains_iff_mem] at halone
      obtain ⟨⟨⟨⟨⟨⟨-, hchoice⟩, -⟩, -⟩, -⟩, -⟩, hkeys⟩ := halone
      refine ⟨Bool.eq_false_iff.mpr fun htrue => honce (hkeys "once" ?_), hchoice⟩
      exact el.mem_definedKeys (el.once, "once") (by simp [Element.Dynamics.keys,
        Element.dynamics]) htrue

/-- What the second pass leaves out does not change. -/
theorem Sound.settled_of_passed {visited : Bool} {inLoop : Option Bool}
    (hi : tree.Passed options i visited inLoop) (hout : inLoop = none) :
    (tree.marked options).Settled region i := by
  induction hi with
  | root hr => cases hout
  | @held i c visited inLoop el hi hel hc ih =>
    have hsettled : (tree.marked options).Settled region i := by
      cases inLoop with
      | none => exact ih rfl
      | some l =>
        rw [Static.inLoopBelow, bind_some] at hout
        split at hout
        · rename_i hroot
          have hstatic := ((h.roots_of_passed hplain hi hel).1.mp hroot).1
          right
          right
          rw [isStaticNode, node?_of_element? hel]
          exact hstatic
        · cases hout
    rcases List.mem_append.mp hc with hc | hc
    · exact h.settled_child hplain hverbatim hsettled ⟨el, hel, hc⟩
    · have hchoice := (h.not_once_of_settled hplain hverbatim honce hsettled hel).2
      rw [Element.otherBranches, hchoice] at hc
      cases hc

/-- An element that is rendered once inside a loop is noted to lie there, and is no static root. -/
theorem Sound.noted_of_once (hi : (tree.marked options).Outer i)
    (hel : (tree.marked options).element? i = some el) (hrendered : el.once = true)
    (houter : (tree.marked options).NearestLoop i outer) :
    el.staticRoot = false ∧ el.staticInLoop = true := by
  obtain ⟨visited, inLoop, hpassed⟩ := hi.exists_passed
  obtain ⟨hroot, hnote⟩ := h.roots_of_passed hplain hpassed hel
  have hchanges : ¬ (tree.marked options).Settled region i := by
    intro hsettled
    rw [(h.not_once_of_settled hplain hverbatim honce hsettled hel).1] at hrendered
    cases hrendered
  constructor
  · rw [Bool.eq_false_iff]
    intro htrue
    apply hchanges
    right
    right
    rw [isStaticNode, node?_of_element? hel]
    exact (hroot.mp htrue).1
  · cases inLoop with
    | none => exact absurd (h.settled_of_passed hplain hverbatim honce hpassed rfl) hchanges
    | some l =>
      rw [hnote l rfl (.inr hrendered)]
      cases l with
      | true => rfl
      | false => exact absurd rfl (h.inLoop_of_passed hpassed houter)

end

/-- The rendering of an element is that of a site. -/
theorem exists_site (options : Options) {tree : Tree} {i : NodeId} {el : Element}
    (hel : tree.element? i = some el) :
    ∃ site : Site, site.id = i ∧ site.el = el ∧
      rendering (Scene.ofTree options tree) (tree.content i) =
        site.rendering (Scene.ofTree options tree) (tree.content i) := by
  obtain ⟨n, hn⟩ := Nat.exists_eq_succ_of_ne_zero
    (Nat.ne_of_gt (Nat.zero_lt_of_lt (lt_size_of_element? hel)))
  rw [content, hn, contentTo, node?_of_element? hel]
  exact ⟨_, rfl, rfl, rfl⟩

/-- An element is rendered once inside a loop and has a function of its own all the same. -/
def HoistedInLoop (compiled : Compiled) (i : NodeId) : Prop :=
  (∃ el, compiled.tree.element? i = some el ∧ el.once = true) ∧
    (∃ a loopEl, Relation.TransGen compiled.tree.HasParent i a ∧
      compiled.tree.element? a = some loopEl ∧ loopEl.loop.isSome = true) ∧
    ∃ call ∈ compiled.program.calls, call.owner = i

theorem HoistedInLoop.of_parent {compiled : Compiled} {i a : NodeId}
    (h : (compiled.tree.element? i).map Element.once = some true ∧
      (compiled.tree.element? i).bind Element.parent = some a ∧
      (compiled.tree.element? a).map (fun el => el.loop.isSome) = some true ∧
      compiled.program.calls.map Code.Call.owner = [i]) : HoistedInLoop compiled i := by
  obtain ⟨honce, hparent, hloop, hcalls⟩ := h
  obtain ⟨el, hel⟩ := map_eq_some_iff.mp hloop
  refine ⟨map_eq_some_iff.mp honce, ⟨a, el, ?_, hel⟩, List.mem_map.mp ?_⟩
  · exact .single (bind_eq_some_iff.mp hparent)
  · rw [hcalls]
    exact List.mem_singleton_self i

end Tree

end ViewTemplate

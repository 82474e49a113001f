import ViewTemplate.Proofs.BuilderFrame
import ViewTemplate.Proofs.ConfinedExtension
import ViewTemplate.Proofs.ReportedRanges
import ViewTemplate.Proofs.SourceCoverage

/-! # Ranges in the tree

While a tree is built, every report points at a place of the template: that of the event at hand, of
an element in the tree or of one of its attributes. The place of an element grows when it closes, and
stays a stretch of the template, since the events of a template end one after the other.
-/

open List Option

namespace ViewTemplate

open ViewTemplate.Reported

/-- The places of a node have a property. -/
def Node.Within (P : Range → Prop) : Node → Prop
  | .element el => el.Within P
  | .interpolated t => ∀ r ∈ t.range, P r
  | .plain t => ∀ r ∈ t.range, P r

theorem Node.Within.range {P : Range → Prop} {node : Node} (h : node.Within P) :
    ∀ r ∈ node.range, P r := by
  cases node with
  | element el => exact Element.Within.own h
  | interpolated t => exact h
  | plain t => exact h

theorem Node.Within.mono {P P' : Range → Prop} {node : Node} (h : node.Within P)
    (hP : ∀ r, P r → P' r) : node.Within P' := by
  cases node with
  | element el => exact Element.Within.mono h hP
  | interpolated t => exact fun r hr => hP r (h r hr)
  | plain t => exact fun r hr => hP r (h r hr)

namespace Tree

variable {P : Range → Prop} {tree : Tree}

/-- The places of all nodes have a property. -/
abbrev Within (P : Range → Prop) (tree : Tree) : Prop := tree.Throughout (Node.Within P)

theorem Within.mono {P' : Range → Prop} (h : tree.Within P) (hP : ∀ r, P r → P' r) :
    tree.Within P' :=
  fun i node hnode => (h i node hnode).mono hP

end Tree

namespace Builder

variable {P : Range → Prop} {options : Options} {b : Builder}

/-- Where the builder stands, all places in its tree have a property. -/
abbrev Within (P : Range → Prop) (b : Builder) : Prop := b.tree.Within P

theorem within_warnOnce (h : b.Within P) {faults : List Diagnostic}
    (hfaults : ∀ d ∈ faults, ∀ r ∈ d.range, P r) : Ensures P (Within P) (b.warnOnce faults) := by
  refine ⟨h, fun d hd => ?_⟩
  simp only [warnOnce] at hd
  split at hd
  · cases hd
  · exact hfaults d hd

theorem within_trimChildren (h : b.Within P) (id : NodeId) : (b.trimChildren id).Within P :=
  h.update id fun _ _ hel => { hel with }

theorem within_fillUse {tree : Tree} (h : tree.Within P) (id : NodeId)
    (use : Option Element.SlotUse) : (fillUse id use tree).Within P := by
  refine fillUse_of_parts (R := fun tree later => tree.Within P → later.Within P) (fun _ h => h)
    (fun h h' hP => h' (h hP)) (fun _ _ h => h.add _ ?_)
    (fun _ child _ h => h.update child fun _ _ hel => { hel with })
    (fun _ _ h => h.update id fun _ _ hel => { hel with }) use h
  constructor <;> intro _ hmem <;> cases hmem

theorem within_readPlacement {el : Element} (h : el.Within P) (platform : Platform)
    (parent : Option Element) (inLoop : Bool) :
    Ensures P (fun read => read.1.Within P) (readPlacement platform parent inLoop el) := by
  rw [readPlacement]
  refine (h.readKey _).bind fun el hel => ?_
  have hplain : el.markPlain.Within P := { hel with }
  exact (hplain.readRef inLoop).readSlotContent platform _

section Extensions

variable (hbrings : ∀ x ∈ options.extensions, x.BringsNoRanges)
include hbrings

theorem within_readContent {el : Element} (h : el.Within P) (loopItems : List String) :
    Ensures P (Element.Within P) (readContent options loopItems el) := by
  refine h.readOutlet.bind fun el hel => ?_
  refine (Extension.within_runAll (fun x hx => (hbrings x hx).atEnd P) _ hel.readComponent).bind
    fun el hel => ?_
  exact hel.classifyAll ..

theorem within_readElement {tree : Tree} (h : tree.Within P) (id : NodeId) :
    Ensures P (Tree.Within P) (readElement options id tree) := by
  simp only [readElement]
  split
  · exact .pure h
  · rename_i el hel
    refine (within_readPlacement (h.element hel) _ _ _).bind fun read hread => ?_
    have hplaced : (tree.set id (.element read.1)).Within P := h.set id _ hread
    have hfilled := within_fillUse hplaced id read.2
    rw [fillUse.eq_def] at hfilled
    split
    · exact .pure hfilled
    · rename_i el hel
      refine (within_readContent hbrings (hfilled.element hel) _).bind fun el hel => ?_
      exact .pure (hfilled.set id _ hel)

theorem within_finishReading (h : b.Within P) (id : NodeId) :
    Ensures P (Within P) (b.finishReading options id) := by
  refine Ensures.bind (.ite (fun _ => .pure h) fun _ => ?_) fun _ htree => .pure htree
  exact within_readElement hbrings h id

theorem within_finishElement (h : b.Within P) (id : NodeId) :
    Ensures P (Within P) (b.finishElement options id) := by
  rw [finishElement]
  split
  · exact .pure h
  · rename_i el hel
    refine (Extension.within_runAll (fun x hx => (hbrings x hx).afterPlacement P) _
      (h.element hel)).bind fun _ hdone => ?_
    exact .pure (h.set id _ hdone)

end Extensions

section Places

variable (hstart : ∀ r, P r → P r.atStart)
include hstart

theorem within_atStart {range : Option Range} (h : ∀ r ∈ range, P r) :
    ∀ r ∈ range.map Range.atStart, P r := by
  intro r hr
  obtain ⟨r', hr', rfl⟩ := map_eq_some_iff.mp hr
  exact hstart r' (h r' hr')

theorem within_rootFaults {el : Element} (hel : el.Within P) :
    ∀ d ∈ rootFaults el, ∀ r ∈ d.range, P r := by
  intro d hd
  rcases mem_append.mp hd with hd | hd
  · split at hd
    · rw [mem_singleton.mp hd]
      exact within_atStart hstart hel.own
    · cases hd
  · split at hd
    · rw [mem_singleton.mp hd]
      exact hel.rangeOf "v-for"
    · cases hd

theorem within_placeOutside (h : b.Within P) (id : NodeId) {el : Element} (hel : el.Within P) :
    Ensures P (Within P) (b.placeOutside id el) := by
  rw [placeOutside]
  refine .ite (fun _ => ?_) fun _ => .pure h
  split
  · refine (within_warnOnce h (within_rootFaults hstart hel)).bind fun b hb => .pure ?_
    exact hb.update _ fun _ _ hr => { hr with }
  · exact within_warnOnce h (forall_mem_singleton.mpr (within_atStart hstart hel.own))

omit hstart in
theorem within_placeBranch {tree : Tree} (h : tree.Within P) (id : NodeId) {el : Element}
    (hel : el.Within P) (parent : NodeId) :
    Ensures P (Tree.Within P) (placeBranch id el parent tree) := by
  have hignored (id : NodeId) : Ensures P (fun _ => True) (reportIgnored tree id) := by
    rw [reportIgnored]
    split
    · rename_i node hnode
      split
      · exact .ite (fun _ => .pure trivial) fun _ => .error (h id node hnode).range
      · exact .pure trivial
    · exact .pure trivial
  simp only [placeBranch]
  refine (Ensures.forM fun id _ => hignored id).bind fun _ _ => ?_
  have hdropped (children : List NodeId) :
      (tree.update parent fun p => { p with children }).Within P :=
    h.update parent fun _ _ hp => { hp with }
  split
  · exact .pure ((hdropped _).update _ fun _ _ hp => { hp with })
  · exact (Ensures.error (hel.rangeOf _)).bind fun _ _ => .pure (hdropped _)

theorem within_place (h : b.Within P) (id : NodeId) : Ensures P (Within P) (b.place id) := by
  rw [place]
  split
  · exact .pure h
  · rename_i el hel
    have hel := h.element hel
    refine (within_placeOutside hstart h id hel).bind fun b hb => ?_
    refine Ensures.bind ?_ fun _ htree => .pure htree
    split
    · exact .pure hb
    · refine .ite (fun _ => .pure hb) fun _ => .ite (fun _ => ?_) fun _ => .pure ?_
      · exact within_placeBranch hb id hel _
      · refine Tree.Throughout.update ?_ id fun _ _ hc => { hc with }
        exact hb.update _ fun _ _ hp => { hp with }

variable (hbrings : ∀ x ∈ options.extensions, x.BringsNoRanges)
include hbrings

theorem within_close (h : b.Within P) (id : NodeId) : Ensures P (Within P) (b.close options id) := by
  rw [close]
  refine (within_finishReading hbrings (within_trimChildren h id) id).bind fun b hb => ?_
  refine (within_place hstart hb id).bind fun b hb => ?_
  refine within_finishElement hbrings (within_trimChildren ?_ id) id
  exact hb.update id fun _ _ hel => { hel with }

theorem within_newElement {tag : String} {attributes : List Attribute} {range : Range}
    (hattributes : ∀ a ∈ attributes, ∀ r ∈ a.range, P r) (hrange : P range) (b : Builder) :
    Ensures P (Element.Within P) (b.newElement options tag attributes range) := by
  have hbare : (b.bare options tag attributes range).Within P := by
    refine ⟨?_, hattributes, ?_, ?_⟩
    · rintro r ⟨⟩
      exact hrange
    · intro a ha
      rcases Keyed.mem_values_foldl_insert ha with ha | ha
      · cases ha
      · obtain ⟨e, hmem, rfl⟩ := List.mem_map.mp ha
        obtain ⟨written, hwritten, rfl⟩ := List.mem_map.mp hmem
        exact hattributes written hwritten
    · intro d hd
      cases hd
  simp only [newElement]
  refine (Ensures.forM fun a ha => ?_).bind fun _ _ => ?_
  · exact .ite (fun _ => .error (hattributes a ha)) fun _ => .pure trivial
  · refine .reporting (.error ?_) ?_
    · rintro r ⟨⟩
      exact hstart range hrange
    · exact Extension.within_runAll (fun x hx => (hbrings x hx).atStart P) _ hbare

omit hstart hbrings in
theorem within_enter {el : Element} (h : b.Within P) (hel : el.Within P) :
    Ensures P (fun entered => entered.1.Within P ∧ entered.2.Within P) (b.enter options el) := by
  have hread : (if b.inVerbatim then el else el.readVerbatim).Within P := by
    split
    · exact hel
    · exact hel.readVerbatim
  refine Ensures.bind ?_ fun _ hel => .pure ⟨hel, h⟩
  exact .ite (fun _ => .pure hread.keepLiterals) fun _ => .ite (fun _ => .pure hread) fun _ =>
    hread.readStructure

theorem within_start (h : b.Within P) {tag : String} {attributes : List Attribute} {unary : Bool}
    {range : Range} (hattributes : ∀ a ∈ attributes, ∀ r ∈ a.range, P r) (hrange : P range) :
    Ensures P (Within P) (b.start options tag attributes unary range) := by
  simp only [start]
  refine (within_newElement hstart hbrings hattributes hrange b).bind fun el hel => ?_
  refine (within_enter h hel).bind fun entered hentered => ?_
  obtain ⟨hel, hb⟩ := hentered
  have hadd : (entered.2.tree.add (.element entered.1)).2.Within P := hb.add _ hel
  have hclaim : Ensures P (Within P) (claimRoot (entered.2.tree.add (.element entered.1)).1 entered.1
      { entered.2 with tree := (entered.2.tree.add (.element entered.1)).2 }) := by
    rw [claimRoot]
    refine .ite (fun _ => ?_) fun _ => .pure hadd
    have hrooted : Within P (withTree
        { entered.2 with tree := (entered.2.tree.add (.element entered.1)).2 } fun tree =>
          { tree with root := some (entered.2.tree.add (.element entered.1)).1 }) :=
      hadd.of_nodes rfl
    exact within_warnOnce hrooted (within_rootFaults hstart hel)
  refine hclaim.bind fun b hb => ?_
  exact .ite (fun _ => within_close hstart hbrings hb _) fun _ => .pure hb

/-- An end tag moves the end of the innermost open element. -/
theorem within_finish {P₀ : Range → Prop} (h : b.Within P₀) {stop : Nat} (hP : ∀ r, P₀ r → P r)
    (hstop : ∀ r, P₀ r → P { r with stop }) : Ensures P (Within P) (b.finish options stop) := by
  rw [finish]
  split
  · exact .pure (h.mono hP)
  · rename_i id stack _
    refine within_close hstart hbrings ?_ id
    intro i node hnode
    have hnode : (b.tree.update id fun el =>
      { el with range := el.range.map fun r => { r with stop } }).node? i = some node := hnode
    rw [Tree.update] at hnode
    split at hnode
    · rename_i el hel
      rw [Tree.node?_set] at hnode
      split at hnode
      · obtain ⟨-, -, rfl⟩ := map_eq_some_iff.mp hnode
        have hel := h.element hel
        refine { hel.mono hP with own := fun r hr => ?_ }
        obtain ⟨old, hold, rfl⟩ := map_eq_some_iff.mp hr
        exact hstop old (hel.own old hold)
      · exact (h i node hnode).mono hP
    · exact (h i node hnode).mono hP

omit hbrings in
theorem within_text (h : b.Within P) (options : Options) (template content : String)
    {range : Range} (hrange : P range) :
    Ensures P (Within P) (b.text options template content range) := by
  have hfault (cause : Cause) :
      ∀ d ∈ [(⟨cause, some range.atStart, .error⟩ : Diagnostic)], ∀ r ∈ d.range, P r := by
    refine forall_mem_singleton.mpr ?_
    rintro r ⟨⟩
    exact hstart range hrange
  rw [text]
  split
  · refine within_warnOnce h ?_
    split
    · exact hfault _
    · split
      · exact forall_mem_nil _
      · exact hfault _
  · split
    · rename_i node hnode
      obtain ⟨parent, -, hkept⟩ := bind_eq_some_iff.mp hnode
      obtain ⟨kept, hkept⟩ := exists_textNode? hkept
      refine .pure (Tree.Throughout.update (h.add _ ?_) _ fun _ _ hp => { hp with })
      have hnew := (isNewText_textNode? hkept).range
      have hown : ∀ r ∈ node.range, P r := by
        rw [hnew]
        rintro r ⟨⟩
        exact hrange
      cases node with
      | element el => cases (isNewText_textNode? hkept).element?
      | interpolated t => exact hown
      | plain t => exact hown
    · exact .pure h

omit hstart hbrings in
theorem within_comment (h : b.Within P) (content : String) {range : Range} (hrange : P range) :
    (b.comment content range).Within P := by
  rw [comment]
  split
  · refine Tree.Throughout.update (h.add _ ?_) _ fun _ _ hp => { hp with }
    rintro r ⟨⟩
    exact hrange
  · exact h

end Places

end Builder

/-! ## Stretches of the template -/

namespace Range

/-- A range that covers a stretch of a source: its ends are in order and lie between characters. -/
structure LiesIn (source : String) (r : Range) : Prop where
  ordered : r.start ≤ r.stop
  start : (Text.splitAtByte? source.toList r.start).isSome = true
  stop : (Text.splitAtByte? source.toList r.stop).isSome = true

variable {source : String} {r : Range}

theorem isSome_splitAtByte?_iff {s : List Char} {n : Nat} :
    (Text.splitAtByte? s n).isSome = true ↔ ∃ a b, s = a ++ b ∧ Text.byteLength a = n := by
  simp only [isSome_iff_exists, Prod.exists, Text.splitAtByte?_eq_some_iff]

/-- What can be cut out of a source lies in it. -/
theorem liesIn_of_slice (h : (r.slice source).isSome = true) : r.LiesIn source := by
  obtain ⟨text, htext⟩ := isSome_iff_exists.mp h
  obtain ⟨⟨before, rest⟩, hbefore, htext⟩ := bind_eq_some_iff.mp htext
  dsimp only at htext
  have hordered : ¬ r.stop < r.start := by
    intro hlt
    rw [if_pos hlt] at htext
    cases htext
  rw [if_neg hordered] at htext
  obtain ⟨⟨inside, after⟩, hinside, -⟩ := bind_eq_some_iff.mp htext
  obtain ⟨hsource, hstart⟩ := Text.splitAtByte?_eq_some_iff.mp hbefore
  obtain ⟨rfl, hlength⟩ := Text.splitAtByte?_eq_some_iff.mp hinside
  refine ⟨Nat.not_lt.mp hordered, ?_, ?_⟩
  · rw [hbefore]
    rfl
  · refine isSome_splitAtByte?_iff.mpr ⟨before ++ inside, after, ?_, ?_⟩
    · rw [hsource, append_assoc]
    · rw [Text.byteLength_append, hstart, hlength]
      exact Nat.add_sub_cancel' (Nat.not_lt.mp hordered)

theorem LiesIn.atStart (h : r.LiesIn source) : r.atStart.LiesIn source :=
  ⟨Nat.le_refl _, h.start, h.start⟩

/-- From the start of one stretch to the end of another. -/
theorem LiesIn.extend {later : Range} (h : r.LiesIn source) (hlater : later.LiesIn source)
    (hle : r.start ≤ later.stop) : LiesIn source { r with stop := later.stop } :=
  ⟨hle, h.start, hlater.stop⟩

theorem LiesIn.stop_le (h : r.LiesIn source) : r.stop ≤ Text.byteLength source.toList := by
  obtain ⟨before, after, hsource, hlength⟩ := isSome_splitAtByte?_iff.mp h.stop
  rw [hsource, Text.byteLength_append, ← hlength]
  exact Nat.le_add_right _ _

end Range

namespace Markup

/-- The places of an event and of its attributes lie in the source, and the attributes start before
the event ends. -/
theorem liesIn_of_event {settings : Settings} {source : String} {e : Event}
    (he : e ∈ events settings source) :
    e.range.LiesIn source ∧ ∀ a ∈ e.attributes, ∀ r ∈ a.range,
      r.LiesIn source ∧ r.start ≤ e.range.stop := by
  refine ⟨Range.liesIn_of_slice (range_bounds he).2.2, fun a ha r hr => ⟨?_, ?_⟩⟩
  · obtain ⟨range, text, hrange, hslice, -⟩ := slice_of_attribute he ha
    rw [hrange] at hr
    cases hr
    refine Range.liesIn_of_slice ?_
    rw [hslice]
    rfl
  · obtain ⟨ps, stack, hps, -, hevents⟩ := pieces_events settings source
    rw [hevents] at he
    rcases mem_append.mp he with he | he
    · obtain ⟨p, hp, he⟩ := mem_flatMap.mp he
      obtain ⟨before, after, -, hplaced⟩ := hps.place hp
      obtain ⟨x, part, y, htext, hrange⟩ := hplaced.names e he a ha
      have hspan : e.range = p.range (0 + Text.byteLength before) := by
        cases e with
        | start => exact (hplaced.spans _ he rfl).resolve_right Event.noConfusion
        | finish | text | comment => cases ha
      rw [hrange] at hr
      cases hr
      rw [hspan, Piece.range, htext]
      simp only [Text.byteLength_append]
      omega
    · obtain ⟨t, rfl⟩ := mem_closeAll he
      cases ha

end Markup

namespace Builder

variable {options : Options} {source : String}

/-- A stretch of a source that starts before an offset. -/
def Behind (source : String) (bound : Nat) (r : Range) : Prop := r.LiesIn source ∧ r.start ≤ bound

theorem Behind.mono {bound later : Nat} (hle : bound ≤ later) {r : Range}
    (h : Behind source bound r) : Behind source later r :=
  ⟨h.1, Nat.le_trans h.2 hle⟩

theorem Behind.atStart {bound : Nat} (r : Range) (h : Behind source bound r) :
    Behind source bound r.atStart :=
  ⟨h.1.atStart, h.2⟩

variable (hbrings : ∀ x ∈ options.extensions, x.BringsNoRanges)
include hbrings

/-- One event reports at stretches of the source, and brings no other places. -/
theorem within_step {bound : Nat} {b : Builder} (h : b.Within (Behind source bound)) {e : Event}
    (he : e.range.LiesIn source) (hle : bound ≤ e.range.stop)
    (hattributes : ∀ a ∈ e.attributes, ∀ r ∈ a.range, r.LiesIn source ∧ r.start ≤ e.range.stop)
    (template : String) :
    Reported.Ensures (Behind source e.range.stop) (Within (Behind source e.range.stop))
      (b.step options template e) := by
  have hlater : b.Within (Behind source e.range.stop) := h.mono fun _ => Behind.mono hle
  have hrange : Behind source e.range.stop e.range := ⟨he, he.ordered⟩
  cases e with
  | start tag attributes unary range =>
    exact within_start Behind.atStart hbrings hlater hattributes hrange
  | finish tag range =>
    refine within_finish Behind.atStart hbrings h (fun _ => Behind.mono hle) fun r hr => ?_
    have hstop : r.start ≤ range.stop := Nat.le_trans hr.2 hle
    exact ⟨hr.1.extend he hstop, hstop⟩
  | text content range => exact within_text Behind.atStart hlater options template content hrange
  | comment content range => exact .pure (within_comment hlater content hrange)

/-- Events that end one after the other report at stretches of the source. -/
theorem within_foldlM {bound : Nat} {b : Builder} (h : b.Within (Behind source bound))
    (template : String) {events : List Event}
    (hevents : ∀ e ∈ events, e.range.LiesIn source ∧ bound ≤ e.range.stop ∧
      ∀ a ∈ e.attributes, ∀ r ∈ a.range, r.LiesIn source ∧ r.start ≤ e.range.stop)
    (hordered : events.Pairwise fun e f => e.range.stop ≤ f.range.stop) :
    Reported.Ensures (Range.LiesIn source) (Within (Range.LiesIn source))
      (events.foldlM (step options template) b) := by
  induction events generalizing b bound with
  | nil => exact .pure (h.mono fun _ hr => hr.1)
  | cons e events ih =>
    obtain ⟨hlies, hle, hattributes⟩ := hevents e mem_cons_self
    obtain ⟨hfirst, hordered⟩ := pairwise_cons.mp hordered
    rw [foldlM_cons]
    have hstep := within_step hbrings h hlies hle hattributes template
    refine (hstep.mono (fun _ hr => hr.1) fun _ hb => hb).bind fun b hb => ih hb ?_ hordered
    intro f hf
    obtain ⟨hlies, -, hattributes⟩ := hevents f (mem_cons_of_mem e hf)
    exact ⟨hlies, hfirst f hf, hattributes⟩

end Builder

/-- The tree of a template has its places in the template, and what is reported on the way has, too. -/
theorem Tree.within_ofTemplate {options : Options}
    (hbrings : ∀ x ∈ options.extensions, x.BringsNoRanges) (template : String) :
    Reported.Ensures (Range.LiesIn template) (Tree.Within (Range.LiesIn template))
      (ofTemplate options template) := by
  have hempty : ({} : Builder).Within (Builder.Behind template 0) := by
    intro i node hnode
    exact absurd (lt_size_of_node? hnode) (Nat.not_lt_zero i)
  refine (Builder.within_foldlM hbrings hempty template (fun e he => ?_)
    (Markup.stops_ordered _ template)).bind fun b hb => .pure hb
  obtain ⟨hlies, hattributes⟩ := Markup.liesIn_of_event he
  exact ⟨hlies, Nat.zero_le _, hattributes⟩

end ViewTemplate

import ViewTemplate.Proofs.Collecting
import ViewTemplate.Proofs.ForestContent
import ViewTemplate.Proofs.LiteralTree

/-! # Code of literal templates

The code of a literal template is balanced: every tag, name, value, text and comment that goes into
it stays inside its own literal. Main statement: all of it can be made into functions, as long as no
attribute has a name that escapes the quote behind it.
-/

open List Option

namespace ViewTemplate.Text

/-- A character that has no meaning of its own inside a literal with double quotes. -/
def IsOrdinary (c : Char) : Prop := c ≠ '"' ∧ c ≠ '\\'

theorem isOrdinary_of_toNat {c : Char} (h : c.toNat ≠ 34 ∧ c.toNat ≠ 92) : IsOrdinary c := by
  constructor
  · rintro rfl
    exact h.1 rfl
  · rintro rfl
    exact h.2 rfl

theorem isOrdinary_ofNat {n : Nat} (h : n ≠ 34 ∧ n ≠ 92) : IsOrdinary (Char.ofNat n) := by
  apply isOrdinary_of_toNat
  rw [Char.ofNat]
  split
  · exact h
  · decide

/-- Whether the images of a run hold no quote and no backslash. -/
def CaseRun.isOrdinary (r : CaseRun) : Bool :=
  92 < r.lo + r.delta || r.lo == r.hi && r.lo + r.delta != 34 && r.lo + r.delta != 92

theorem isOrdinary_of_mem_upperRuns : ∀ r ∈ upperRuns, r.isOrdinary = true := by decide +kernel

theorem isOrdinary_of_mem_upperExpansions :
    ∀ e ∈ upperExpansions, e.2 ≠ [] ∧ ∀ n ∈ e.2, n ≠ 34 ∧ n ≠ 92 := by decide

theorem isOrdinary_of_caseImage? {n image : Nat} (h : caseImage? upperRuns n = some image) :
    image ≠ 34 ∧ image ≠ 92 := by
  obtain ⟨r, hfind, rfl⟩ := map_eq_some_iff.mp h
  have hr := isOrdinary_of_mem_upperRuns r (mem_of_find?_eq_some hfind)
  have hcovers := find?_some hfind
  simp only [CaseRun.isOrdinary, Bool.or_eq_true, Bool.and_eq_true, decide_eq_true_eq, beq_iff_eq,
    bne_iff_ne] at hr hcovers
  rw [Int.ofNat_eq_natCast]
  constructor
  · omega
  · omega

/-- The upper-case form of a word character is made of ordinary characters. -/
theorem isOrdinary_upper {c : Char} (h : isWord c = true) :
    upper c ≠ [] ∧ ∀ d ∈ upper c, IsOrdinary d := by
  rw [upper]
  split
  · rename_i hascii
    have hself : IsOrdinary c := by
      constructor <;> rintro rfl <;> exact absurd h (by decide)
    refine ⟨cons_ne_nil _ _, ?_⟩
    rw [forall_mem_singleton]
    split
    · rename_i hlower
      simp only [Bool.and_eq_true, decide_eq_true_eq] at hlower
      have hfirst : 97 ≤ c.toNat := hlower.1
      have hlast : c.toNat ≤ 122 := hlower.2
      apply isOrdinary_ofNat
      constructor
      · omega
      · omega
    · exact hself
  · rename_i hascii
    split
    · rename_i image himage
      obtain ⟨before, after, he, -⟩ := lookup_eq_some_iff.mp himage
      obtain ⟨hne, hall⟩ := isOrdinary_of_mem_upperExpansions (c.toNat, image) (by rw [he]; simp)
      refine ⟨fun hnil => hne (map_eq_nil_iff.mp hnil), ?_⟩
      rw [List.forall_mem_map]
      exact fun n hn => isOrdinary_ofNat (hall n hn)
    · refine ⟨cons_ne_nil _ _, ?_⟩
      rw [forall_mem_singleton]
      cases himage : caseImage? upperRuns c.toNat with
      | none =>
        apply isOrdinary_of_toNat
        constructor
        · show c.toNat ≠ 34
          omega
        · show c.toNat ≠ 92
          omega
      | some image => exact isOrdinary_ofNat (isOrdinary_of_caseImage? himage)

open ViewTemplate.Balanced

/-- Camel case leaves the end of a name as it is. -/
theorem escapedAfter_camelizeChars (escaped : Bool) (s : List Char) :
    escapedAfter escaped (camelizeChars s) = escapedAfter escaped s := by
  fun_induction camelizeChars s generalizing escaped with
  | case1 => rfl
  | case2 c => rfl
  | case3 c d s hdash ih =>
    simp only [Bool.and_eq_true, decide_eq_true_eq] at hdash
    obtain ⟨rfl, hword⟩ := hdash
    obtain ⟨hne, hordinary⟩ := isOrdinary_upper hword
    have hd : d ≠ '\\' := by
      rintro rfl
      exact absurd hword (by decide)
    have hupper : escapedAfter escaped (upper d) = false := by
      cases hcases : upper d with
      | nil => exact absurd hcases hne
      | cons first rest =>
        rw [hcases, forall_mem_cons] at hordinary
        rw [escapedAfter_cons, beq_eq_false_iff_ne.mpr hordinary.1.2, Bool.and_false]
        exact escapedAfter_of_not_mem fun hmem => (hordinary.2 _ hmem).2 rfl
    rw [escapedAfter_append, hupper, ih]
    simp [beq_eq_false_iff_ne.mpr hd]
  | case4 c d s hdash ih =>
    rw [escapedAfter_cons, escapedAfter_cons, ih]

theorem unquoted_camelizeChars {s : List Char} (h : '"' ∉ s) : '"' ∉ camelizeChars s := by
  fun_induction camelizeChars s with
  | case1 => exact h
  | case2 c => exact h
  | case3 c d s hdash ih =>
    simp only [Bool.and_eq_true, decide_eq_true_eq] at hdash
    simp only [mem_cons, not_or] at h
    rw [mem_append, not_or]
    exact ⟨fun hmem => ((isOrdinary_upper hdash.2).2 _ hmem).1 rfl, ih h.2.2⟩
  | case4 c d s hdash ih =>
    rw [mem_cons, not_or] at h ⊢
    exact ⟨h.1, ih h.2⟩

end ViewTemplate.Text

namespace ViewTemplate

open ViewTemplate.Balanced (IsBalanced Encloses)

theorem Attribute.IsEntry.camelize {a : Attribute} (h : a.IsEntry) :
    ({ a with name := Text.camelize a.name } : Attribute).IsEntry where
  static := h.static
  unquoted := by
    rw [Text.camelize, Text.toList_onChars]
    exact Text.unquoted_camelizeChars h.unquoted
  closed := by
    rw [Text.camelize, Text.toList_onChars, Balanced.endsEscaped, Text.escapedAfter_camelizeChars]
    exact h.closed
  value := h.value

namespace Render

/-- An object of entries with names that a literal can hold is balanced. -/
theorem isBalanced_properties {attributes : List Attribute} (h : ∀ a ∈ attributes, a.IsEntry) :
    IsBalanced (properties attributes) := by
  have hcomma : IsBalanced "," := by decide
  have hbraces : Encloses .code "\x7b" "\x7d" := by decide
  have hname : Encloses (.literal '"' false) "\"" "\":" := by decide
  have hcomputed : (attributes.filter fun a => a.dynamic) = [] := by
    rw [filter_eq_nil_iff]
    intro a ha
    rw [(h a ha).static]
    exact Bool.false_ne_true
  rw [properties, hcomputed, objectWith]
  apply (hcomma.intercalate ?_).enclosed hbraces
  rw [List.forall_mem_map]
  intro a ha
  have hentry := h a (mem_filter.mp ha).1
  exact ((Balanced.Fits.of_not_endsEscaped hentry.unquoted hentry.closed).enclosed hname).append
    hentry.value.escapeSeparators

variable {scene : Scene}

/-- A rendering of balanced code, in every place. -/
structure Rendering.IsBalanced (r : Rendering) : Prop where
  node : ∀ verbatim, Collects Code.IsBalanced Code.IsBalanced (r.node verbatim)
  branch : ∀ verbatim, Collects Code.IsBalanced Code.IsBalanced (r.branch verbatim)
  slot : ∀ verbatim, Collects Code.IsBalanced Code.IsBalanced (r.slot verbatim)

theorem balanced_childrenCode (hinted verbatim : Bool) {children : List Rendering}
    (h : ∀ r ∈ children, r.IsBalanced) :
    Collects Code.IsBalanced (fun o => ∀ c ∈ o, Code.IsBalanced c)
      (childrenCode scene hinted verbatim children) := by
  have hcomma : IsBalanced "," := by decide
  have hlist : Encloses .code "[" "]" := by decide
  rw [childrenCode]
  split
  · exact .pure nofun
  · split
    · rename_i r el honly
      apply Collects.bind ((h r (mem_of_onlyLoop? honly)).node verbatim)
      intro code hcode
      apply Collects.pure
      rintro c ⟨⟩
      refine hcode.append (.text ?_)
      split
      · split
        · decide
        · decide
      · decide
    · apply Collects.bind (Collects.mapM fun r hr => (h r hr).node verbatim)
      intro codes hcodes
      apply Collects.pure
      rintro c ⟨⟩
      refine ((Code.IsBalanced.join hcomma hcodes).enclosed hlist).append (.text ?_)
      split
      · exact hcomma.append (Balanced.isBalanced_toString _)
      · decide

theorem balanced_slotsEntry (el : Element) {slots : List Rendering} (verbatim : Bool)
    (h : ∀ r ∈ slots, r.IsBalanced) :
    Collects Code.IsBalanced Code.IsBalanced (slotsEntry scene el slots verbatim) := by
  have hcomma : IsBalanced "," := by decide
  have halways : Encloses .code "scopedSlots:_u([" "],null,true)" := by decide
  have hnever : Encloses .code "scopedSlots:_u([" "])" := by decide
  have hstart : Balanced.Leads {} ⟨.code, ['[', '(']⟩ "scopedSlots:_u([" := by decide
  have hkey : Balanced.Leads ⟨.code, ['[', '(']⟩ ⟨.code, ['(']⟩ "],null,false," := by decide
  have hend : Balanced.Leads ⟨.code, ['(']⟩ {} ")" := by decide
  rw [slotsEntry]
  apply Collects.bind (Collects.mapM fun r hr => (h r hr).slot verbatim)
  intro codes hcodes
  apply Collects.pure
  have hcode := Code.IsBalanced.join hcomma hcodes
  split
  · exact hcode.enclosed halways
  · have hlist := (Code.Leads.text hstart).append (hcode.leads _)
    have hnumber (n : Nat) := (Code.IsBalanced.text (Balanced.isBalanced_toString n)).leads ['(']
    exact (((hlist.append (.text hkey)).append (hnumber _)).append (.text hend)).isBalanced
  · exact hcode.enclosed hnever

theorem balanced_rootCode {r : Rendering} (h : r.IsBalanced) :
    Collects Code.IsBalanced Code.IsBalanced (rootCode r) := by
  have hempty : IsBalanced "_c(\"div\")" := by decide
  have hnull : IsBalanced "null" := by decide
  rw [rootCode]
  split
  · exact .ite _ (.pure (.text hnull)) (h.node false)
  · exact .pure (.text hempty)

theorem balanced_inlineEntry (el : Element) {children : List Rendering}
    (h : ∀ r ∈ children, r.IsBalanced) :
    Collects Code.IsBalanced (fun o => ∀ c ∈ o, Code.IsBalanced c) ( inlineEntry? el children) := by
  rw [ inlineEntry?]
  apply Collects.reporting
  split
  · exact .pure nofun
  · rename_i child hchild
    have hmem : child ∈ children := by
      rw [filter_eq_some_iff] at hchild
      exact mem_of_mem_head? hchild.1
    apply Collects.bind (Collects.apart (balanced_rootCode (h child hmem)))
    rintro ⟨render, functions⟩ ⟨hrender, hfunctions⟩
    apply Collects.pure
    rintro c ⟨⟩
    exact .inlined hrender hfunctions

/-- The tag of a literal element can stand between quotes of both kinds. -/
theorem fits_tag {el : Element} (h : el.IsLiteral) {quote : Char}
    (hquote : quote = '"' ∨ quote = '\x27') :
    Balanced.Fits (.literal quote false) el.tag.toList := by
  have hnot (c : Char) (hc : Markup.isNameChar c = false) (hcolon : c ≠ ':') :
      c ∉ el.tag.toList := by
    intro hmem
    rcases h.tag c hmem with hname | hname
    · rw [hc] at hname
      cases hname
    · exact hcolon hname
  have hbackslash := hnot '\\' (by decide) (by decide)
  rcases hquote with rfl | rfl
  · exact .of_not_mem (hnot _ (by decide) (by decide)) hbackslash
  · exact .of_not_mem (hnot _ (by decide) (by decide)) hbackslash

theorem balanced_ownEntries (hweb : scene.options = .web) (verbatim : Bool) {el : Element}
    (h : el.IsLiteral) : ∀ s ∈ ownEntries scene verbatim el [], IsBalanced s := by
  have hevents : el.events.isEmpty = true := by
    rw [show el.events = {} from congrArg Element.Directed.events h.directed]
    rfl
  have hnative : el.nativeEvents.isEmpty = true := by
    rw [show el.nativeEvents = {} from congrArg Element.Directed.nativeEvents h.directed]
    rfl
  have hclass : el.classBinding = none := congrArg Element.Directed.classBinding h.directed
  have hstyle : el.styleBinding = none := congrArg Element.Directed.styleBinding h.directed
  have hon (c : Bool) {entry : String} (hentry : IsBalanced entry) :
      ∀ s ∈ (if c then [entry] else []), IsBalanced s := by
    split
    · exact forall_mem_singleton.mpr hentry
    · exact forall_mem_nil _
  have hoption {name : String} (hname : IsBalanced name) {o : Option String}
      (ho : ∀ s ∈ o, IsBalanced s) : ∀ s ∈ (o.map fun v => name ++ v).toList, IsBalanced s := by
    intro s hs
    rw [mem_toList, map_eq_some_iff] at hs
    obtain ⟨v, hv, rfl⟩ := hs
    exact hname.append (ho v hv)
  simp only [ownEntries, hweb, Options.web, Extension.classList, Extension.inlineStyle, hevents,
    hnative, hclass, hstyle, forall_mem_append, flatMap_cons, flatMap_nil]
  refine ⟨⟨⟨⟨⟨⟨⟨⟨⟨⟨⟨?directives, ?key⟩, ?ref⟩, ?refInLoop⟩, ?pre⟩, ?tag⟩,
    ⟨?staticClass, ?classBinding⟩, ⟨?staticStyle, ?styleBinding⟩, ?others⟩, ?attributes⟩,
    ?properties⟩, ?events⟩, ?nativeEvents⟩, ?slotTarget⟩
  case directives | classBinding | styleBinding | others | events | nativeEvents =>
    exact forall_mem_nil _
  case key => exact hoption (by decide) h.key
  case ref => exact hoption (by decide) h.ref
  case refInLoop => exact hon _ (by decide)
  case pre => exact hon _ (by decide)
  case tag =>
    have hquotes : Encloses (.literal '"' false) "tag:\"" "\"" := by decide
    exact hon _ ((fits_tag h (.inl rfl)).enclosed hquotes)
  case staticClass => exact hoption (by decide) h.staticClass
  case staticStyle => exact hoption (by decide) h.staticStyle
  case attributes =>
    have hname : IsBalanced "attrs:" := by decide
    exact hon _ (hname.append (isBalanced_properties h.attributes))
  case properties =>
    have hname : IsBalanced "domProps:" := by decide
    exact hon _ (hname.append (isBalanced_properties h.properties))
  case slotTarget =>
    split
    · exact hoption (by decide) h.slotTarget
    · exact forall_mem_nil _

theorem balanced_dataCode (hweb : scene.options = .web) (id : NodeId) {el : Element}
    (h : el.IsLiteral) {children slots : List Rendering} (verbatim : Bool)
    (hchildren : ∀ r ∈ children, r.IsBalanced) (hslots : ∀ r ∈ slots, r.IsBalanced) :
    Collects Code.IsBalanced Code.IsBalanced (dataCode scene id el children slots verbatim) := by
  have hdirectives : el.directives = [] := congrArg Element.Directed.directives h.directed
  have hmodel : el.model = none := congrArg Element.Directed.model h.directed
  have hcomma : IsBalanced "," := by decide
  have hbraces : Encloses .code "\x7b" "\x7d" := by decide
  have hcomputed (data : Code) : withComputed el data = data := by
    have hdynamic : el.dynamicAttributes = [] :=
      congrArg Element.Directed.dynamicAttributes h.directed
    have hbound : el.boundObject = none := congrArg Element.Directed.boundObject h.directed
    have hlisteners : el.listenerObject = none :=
      congrArg Element.Directed.listenerObject h.directed
    simp only [withComputed, hdynamic, hbound, hlisteners, isEmpty_nil, if_true]
  have hentry : Collects Code.IsBalanced (fun o => ∀ c ∈ o, Code.IsBalanced c)
      (some <$> slotsEntry scene el slots verbatim) := by
    apply Collects.map (balanced_slotsEntry el verbatim hslots)
    rintro c hc _ ⟨⟩
    exact hc
  rw [dataCode, hdirectives]
  apply Collects.bind (R := fun e => e = (el, [])) (.lift rfl)
  rintro _ rfl
  dsimp only
  refine Collects.iteBind _ (.pure nofun) hentry fun slots hslots => ?_
  refine Collects.iteBind _ (balanced_inlineEntry el hchildren) (.pure nofun)
    fun inlined hinlined => ?_
  apply Collects.pure
  rw [hcomputed, hmodel]
  refine (Code.IsBalanced.join hcomma ?_).enclosed hbraces
  simp only [forall_mem_append, List.forall_mem_map, mem_toList]
  refine ⟨⟨⟨?_, hslots⟩, nofun⟩, hinlined⟩
  intro s hs
  exact .text (balanced_ownEntries hweb _ h s hs)

/-- A site of a literal element whose parts have balanced code. -/
structure Site.IsLiteral (scene : Scene) (site : Site) : Prop where
  web : scene.options = .web
  element : site.el.IsLiteral
  children : ∀ r ∈ site.children, r.IsBalanced
  branches : ∀ r ∈ site.branches, r.IsBalanced
  slots : ∀ r ∈ site.slots, r.IsBalanced

namespace Site.IsLiteral

variable {site : Site}

section

variable (h : site.IsLiteral scene)
include h

theorem innerChildren (verbatim : Bool) :
    Collects Code.IsBalanced (fun o => ∀ c ∈ o, Code.IsBalanced c)
      (site.innerChildren scene verbatim) :=
  .ite _ (.pure nofun) (balanced_childrenCode true verbatim h.children)

theorem data (verbatim : Bool) :
    Collects Code.IsBalanced Code.IsBalanced (site.data scene verbatim) :=
  balanced_dataCode h.web site.id h.element verbatim h.children h.slots

theorem component (verbatim : Bool) :
    Collects Code.IsBalanced Code.IsBalanced (site.component scene verbatim) := by
  have hcomma : IsBalanced "," := by decide
  have hcall : Encloses .code "_c(" ")" := by decide
  have hname : IsBalanced (site.el.component.getD "") := by
    cases hcomponent : site.el.component with
    | none => decide
    | some name => exact h.element.component name hcomponent
  apply Collects.bind (h.innerChildren verbatim)
  intro children hchildren
  apply Collects.bind (h.data verbatim)
  intro data hdata
  apply Collects.pure
  refine (Code.IsBalanced.join hcomma ?_).enclosed hcall
  simp only [forall_mem_cons, mem_toList]
  exact ⟨.text hname, hdata, hchildren⟩

theorem element_code (verbatim : Bool) :
    Collects Code.IsBalanced Code.IsBalanced (site.element scene verbatim) := by
  have hcomma : IsBalanced "," := by decide
  have hcall : Encloses .code "_c(" ")" := by decide
  have hname : IsBalanced (site.constructorName scene) := by
    have hquotes : Encloses (.literal '\x27' false) "'" "'" := by decide
    have hnone : scene.options.bindings = none := by
      rw [h.web]
      rfl
    rw [constructorName, hnone, bind_none, ite_self]
    exact (fits_tag h.element (.inr rfl)).enclosed hquotes
  have hdata : Collects Code.IsBalanced (fun o => ∀ c ∈ o, Code.IsBalanced c)
      (some <$> site.data scene verbatim) := by
    apply Collects.map (h.data verbatim)
    rintro c hc _ ⟨⟩
    exact hc
  rw [Site.element]
  refine Collects.iteBind _ hdata (.pure nofun) fun data hdata => ?_
  apply Collects.bind (h.innerChildren verbatim)
  intro children hchildren
  apply Collects.pure
  refine (Code.IsBalanced.join hcomma ?_).enclosed hcall
  simp only [forall_mem_cons, forall_mem_append, mem_toList]
  exact ⟨.text hname, hdata, hchildren⟩

/-- The attributes of an outlet, with names in camel case. -/
theorem isBalanced_outlet_attributes : Balanced.IsBalanced (properties
    ((site.el.attributes ++ site.el.dynamicAttributes).map fun a =>
      { a with name := Text.camelize a.name })) := by
  have hdynamic : site.el.dynamicAttributes = [] :=
    congrArg Element.Directed.dynamicAttributes h.element.directed
  apply isBalanced_properties
  rw [hdynamic, append_nil, List.forall_mem_map]
  exact fun a ha => (h.element.attributes a ha).camelize

theorem outlet (verbatim : Bool) :
    Collects Code.IsBalanced Code.IsBalanced (site.outlet scene verbatim) := by
  have hfunction : Encloses .code ",function()\x7breturn " "\x7d" := by decide
  have hcomma : IsBalanced "," := by decide
  have hnull : IsBalanced ",null" := by decide
  have hempty : IsBalanced "" := by decide
  have hstart : Balanced.Leads {} ⟨.code, ['(']⟩ "_t(" := by decide
  have hend : Balanced.Leads ⟨.code, ['(']⟩ {} ")" := by decide
  have hname : IsBalanced (site.el.slotName.getD Element.defaultSlot) := by
    cases hslot : site.el.slotName with
    | none => decide
    | some name => exact h.element.slotName name hslot
  have hbound : site.el.attribute? "v-bind" = none := by
    cases hvalue : site.el.attribute? "v-bind" with
    | none => rfl
    | some value =>
      exact absurd (h.element.written _ value hvalue).undirected (by decide)
  rw [Site.outlet]
  apply Collects.bind (balanced_childrenCode false verbatim h.children)
  intro code hcode
  apply Collects.pure
  rw [hbound]
  have hattributes := h.isBalanced_outlet_attributes
  generalize properties _ = attributes at hattributes
  refine (((((Code.Leads.text hstart).append ((Code.IsBalanced.text hname).leads _)).append
    (Code.IsBalanced.leads ?fallback _)).append (Code.IsBalanced.leads ?rest _)).append
    (.text hend)).isBalanced
  case fallback =>
    split
    · exact (hcode _ rfl).enclosed hfunction
    · split
      · exact .text hempty
      · exact .text hnull
  case rest =>
    split_ifs
    · exact .text hempty
    · exact (Code.IsBalanced.text hcomma).append (.text hattributes)

/-- The extensions of the platform write nothing around an element. -/
theorem surrounded {code : Code} (hcode : code.IsBalanced) :
    (site.surrounded scene code).IsBalanced := by
  have hempty : Encloses .code "" "" := by decide
  rw [Site.surrounded, h.web]
  exact (hcode.enclosed hempty).enclosed hempty

theorem inside (verbatim : Bool) :
    Collects Code.IsBalanced Code.IsBalanced (site.inside scene verbatim) := by
  have hnothing : IsBalanced "void 0" := by decide
  rw [Site.inside]
  split
  · apply Collects.bind (balanced_childrenCode false verbatim h.children)
    intro children hchildren
    apply Collects.pure
    cases children with
    | none => exact .text hnothing
    | some code => exact hchildren code rfl
  · exact h.outlet verbatim
  · exact .map (h.component verbatim) fun code hcode => h.surrounded hcode
  · exact .map (h.element_code verbatim) fun code hcode => h.surrounded hcode

/-- A literal element has no wrapper but a function of its own. -/
theorem wrapped (pending : Pending) (verbatim : Bool) :
    Collects Code.IsBalanced Code.IsBalanced (site.wrapped scene pending verbatim) := by
  have honce : site.el.once = false := congrArg Element.Directed.once h.element.directed
  have hloop : site.el.loop = none := congrArg Element.Directed.loop h.element.directed
  have hchoice : site.el.choice = none := congrArg Element.Directed.choice h.element.directed
  simp only [Site.wrapped, Site.withLoop, Site.withChoice, repeated, chosen, honce, hloop, hchoice,
    ite_self, Bool.false_eq_true, if_false]
  exact .ite _ (.hoist (Code.IsBalanced.hoisted site.id · _) h.inside verbatim) (h.inside verbatim)

theorem branch (verbatim : Bool) :
    Collects Code.IsBalanced Code.IsBalanced (site.branch scene verbatim) := by
  have honce : site.el.once = false := congrArg Element.Directed.once h.element.directed
  rw [Site.branch, honce]
  exact h.wrapped {} verbatim

theorem slotBody (verbatim : Bool) :
    Collects Code.IsBalanced Code.IsBalanced (site.slotBody scene verbatim) := by
  have hchoice : site.el.choice = none := congrArg Element.Directed.choice h.element.directed
  have hnothing : IsBalanced "undefined" := by decide
  rw [Site.slotBody, hchoice]
  split
  · apply Collects.bind (balanced_childrenCode false verbatim h.children)
    intro children hchildren
    apply Collects.pure
    cases children with
    | none => exact .text hnothing
    | some code => exact hchildren code rfl
  · exact h.wrapped _ verbatim

theorem slotEntry (verbatim : Bool) :
    Collects Code.IsBalanced Code.IsBalanced (site.slotEntry scene verbatim) := by
  have hscope : site.el.slotScope = none := congrArg Element.Directed.slotScope h.element.directed
  have hkey : Balanced.Leads {} ⟨.code, ['\x7b']⟩ "\x7bkey:" := by decide
  have hfunction : Balanced.Leads ⟨.code, ['\x7b']⟩ ⟨.code, ['(', '\x7b']⟩ ",fn:function(" := by
    decide
  have hundefined : IsBalanced "undefined" := by decide
  have hreturn :
      Balanced.Leads ⟨.code, ['(', '\x7b']⟩ ⟨.code, ['\x7b', '\x7b']⟩ ")\x7breturn " := by
    decide
  have hbrace : Balanced.Leads ⟨.code, ['\x7b', '\x7b']⟩ ⟨.code, ['\x7b']⟩ "\x7d" := by
    decide
  have hend : Balanced.Leads ⟨.code, ['\x7b']⟩ {} "\x7d" := by decide
  have htarget : IsBalanced (site.el.slotTarget.getD Element.defaultSlot) := by
    cases hslot : site.el.slotTarget with
    | none => decide
    | some name => exact h.element.slotTarget name hslot
  rw [Site.slotEntry, hscope]
  apply Collects.bind (h.slotBody verbatim)
  intro body hbody
  apply Collects.pure
  dsimp only
  rw [if_neg (by decide)]
  have hname := ((Code.Leads.text hkey).append ((Code.IsBalanced.text htarget).leads _)).append
    (.text hfunction)
  have hparameter := (hname.append ((Code.IsBalanced.text hundefined).leads _)).append
    (.text hreturn)
  exact (((hparameter.append (hbody.leads _)).append (.text hbrace)).append (.text hend)).isBalanced

theorem slot (verbatim : Bool) :
    Collects Code.IsBalanced Code.IsBalanced (site.slot scene verbatim) := by
  have hloop : site.el.loop = none := congrArg Element.Directed.loop h.element.directed
  have hchoice : site.el.choice = none := congrArg Element.Directed.choice h.element.directed
  simp only [Site.slot, repeated, chosen, hloop, hchoice, ite_self]
  exact h.slotEntry verbatim

theorem rendering (content : Content) : (site.rendering scene content).IsBalanced where
  node := h.wrapped {}
  branch := h.branch
  slot := h.slot

end

end Site.IsLiteral

theorem isBalanced_leaf (content : Content) {code : String} (h : IsBalanced code) :
    (leaf content code).IsBalanced where
  node _ := .pure (.text h)
  branch _ := .pure (.text h)
  slot _ := .pure (.text h)

/-- The code of literal nodes without interpolations is balanced. -/
theorem isBalanced_rendering (hweb : scene.options = .web) {c : Content}
    (h : ∀ e ∈ c.nodes, e.2.IsLiteral ∧ e.2.isInterpolated = false) :
    (rendering scene c).IsBalanced := by
  have hcomment : Encloses .code "_e(" ")" := by decide
  have htext : Encloses .code "_v(" ")" := by decide
  apply rendering_of_nodes (N := fun _ node => node.IsLiteral ∧ node.isInterpolated = false)
    ?plain ?interpolated ?site h
  case plain =>
    intro id t _
    have hliteral : IsBalanced (Text.sourceLiteral t.text) :=
      (Balanced.isBalanced_quote _).escapeSeparators
    rw [rendering]
    apply isBalanced_leaf
    split
    · exact hliteral.enclosed hcomment
    · exact hliteral.enclosed htext
  case interpolated =>
    intro id t ht
    cases ht.2
  case site =>
    intro site content hel hchildren hbranches hslots
    exact Site.IsLiteral.rendering ⟨hweb, hel.1, hchildren, hbranches, hslots⟩ content

end Render

/-! ## Templates -/

theorem Node.IsLiteral.of_unmarked {node other : Node} (h : node.IsLiteral)
    (hsame : other.unmarked = node.unmarked) : other.IsLiteral := by
  cases other with
  | element el =>
    cases node with
    | element written =>
      have hel : el.unmarked = written.unmarked := Node.element.inj hsame
      have hkept : written.unmarked.IsLiteral := { (show written.IsLiteral from h) with }
      rw [← hel] at hkept
      exact { (show el.unmarked.IsLiteral from hkept) with }
    | interpolated t => cases hsame
    | plain t => cases hsame
  | interpolated t => trivial
  | plain t => trivial

namespace Tree

/-- The code of a tree of literal nodes without interpolations is balanced. -/
theorem isBalanced_program {tree : Tree}
    (h : ∀ id node, tree.node? id = some node → node.IsLiteral ∧ node.isInterpolated = false) :
    (tree.program .web).value.render.IsBalanced ∧
      ∀ f ∈ (tree.program .web).value.functions, f.IsBalanced := by
  have hempty : Balanced.IsBalanced "_c(\"div\")" := by decide
  have hgeneration : Render.Collects Code.IsBalanced Code.IsBalanced
      (Render.generation (.ofTree .web tree) tree.rootContent?) := by
    rw [rootContent?]
    cases tree.root with
    | none => exact .pure (.text hempty)
    | some root =>
      have hnodes := forall_nodes_contentTo ⟨trivial, rfl⟩ h tree.nodes.size root
      exact Render.balanced_rootCode (Render.isBalanced_rendering rfl hnodes)
  exact hgeneration {} (forall_mem_nil _)

end Tree

/-- The marked tree of a literal template. -/
theorem IsLiteralTemplate.marked {template : String} (h : IsLiteralTemplate template)
    (hclosed : ∀ e ∈ Markup.events (Tree.markupSettings .web) template, e.isClosed = true) :
    ∀ id node, ((Tree.ofTemplate .web template).value.marked .web).node? id = some node →
      node.IsLiteral ∧ node.isInterpolated = false := by
  obtain ⟨ledger, hsound, -⟩ := Tree.exists_sound_ofTemplate Extension.keepsLinks_web template
  intro id node hnode
  have hunmarked := Tree.node?_unmarked ((Tree.ofTemplate .web template).value.marked .web) id
  rw [hsound.unmarked_marked, Tree.node?_unmarked, hnode] at hunmarked
  obtain ⟨written, hwritten, hsame⟩ := map_eq_some_iff.mp hunmarked
  have hliteral := Tree.literal_ofTemplate h.attributes hclosed id written hwritten
  refine ⟨hliteral.of_unmarked hsame.symm, ?_⟩
  have hplain := h.texts written (Array.mem_of_getElem? hwritten)
  cases node with
  | interpolated t =>
    cases written with
    | interpolated s => cases hplain
    | element el => cases hsame
    | plain s => cases hsame
  | element el => rfl
  | plain t => rfl

/-- The factory takes all code of a literal template, if no attribute has a name that ends in a
backslash of its own: such a backslash escapes the quote behind the name. -/
theorem create_of_isLiteralTemplate (template : String)
    (hliteral : IsLiteralTemplate (Text.onChars Text.trim template))
    (hclosed : ∀ e ∈ Markup.events (Tree.markupSettings .web) (Text.onChars Text.trim template),
      e.isClosed = true) :
    ∀ code ∈ (compile .web template).render :: (compile .web template).functions,
      Factory.source.create code = .ok (Code.function code) := by
  have hcreate {code : String} (h : Balanced.IsBalanced code) :
      Factory.source.create code = .ok (Code.function code) := by
    simp only [Factory.source, Balanced.fault?_eq_none_iff.mpr h]
  obtain ⟨hrender, hfunctions⟩ := Tree.isBalanced_program (hliteral.marked hclosed)
  rw [forall_mem_cons]
  refine ⟨hcreate hrender.body, ?_⟩
  intro code hcode
  obtain ⟨f, hf, rfl⟩ := List.mem_map.mp hcode
  exact hcreate (hfunctions f hf).body

/-- Quotes, brackets and backslashes in names, values and texts. -/
theorem create_of_markup_with_quotes :
    IsLiteralTemplate (Text.onChars Text.trim
        "<a><p b\\\\=']\\'><i>\"</i></p><slot name='`'>\\</slot></a>") ∧
      ∀ code ∈
        (compile .web
          "<a><p b\\\\=']\\'><i>\"</i></p><slot name='`'>\\</slot></a>").render ::
        (compile .web
          "<a><p b\\\\=']\\'><i>\"</i></p><slot name='`'>\\</slot></a>").functions,
        Factory.source.create code = .ok (Code.function code) := by
  have hliteral : IsLiteralTemplate (Text.onChars Text.trim
      "<a><p b\\\\=']\\'><i>\"</i></p><slot name='`'>\\</slot></a>") := by
    constructor
    · decide +kernel
    · decide +kernel
  exact ⟨hliteral, create_of_isLiteralTemplate _ hliteral (by decide +kernel)⟩

/-- A backslash at the end of the name of an attribute escapes the quote that should end the
name. -/
theorem create_of_name_with_backslash :
    IsLiteralTemplate "<p a\\=\"x\"></p>" ∧
      (compile .web "<p a\\=\"x\"></p>").render =
        "with(this)\x7breturn _c('p',\x7battrs:\x7b\"a\\\":\"x\"\x7d\x7d)\x7d" ∧
      Factory.source.create (compile .web "<p a\\=\"x\"></p>").render =
        .error "unterminated string literal starting with \"" := by
  refine ⟨⟨?_, ?_⟩, ?_, ?_⟩
  · decide +kernel
  · decide +kernel
  · decide +kernel
  · decide +kernel

end ViewTemplate

import ViewTemplate.Proofs.RespelledElement

/-! # Rules of directives in two spellings

The rules for documents do the same to elements that differ in the spelling of some names. Only the
rule for two-way bindings looks at attributes that can be spelled in two ways.
-/

namespace ViewTemplate

theorem Directive.exists_range_of_unplaced {d d' : Directive} (h : d'.unplaced = d.unplaced) :
    ∃ range, d' = { d with range } := by
  obtain ⟨name, rawName, value, argument, dynamicArgument, modifiers, range⟩ := d
  obtain ⟨name', rawName', value', argument', dynamicArgument', modifiers', range'⟩ := d'
  rw [unplaced, unplaced] at h
  cases h
  exact ⟨range', rfl⟩

/-- A rule is found under the name of its directive. -/
theorem Rules.mem_builtIn_of_get? {name : String} {rule : Rule}
    (h : Rule.builtIn.get? name = some rule) :
    (name, rule) ∈ [("on", Rule.on), ("bind", Rule.bind), ("cloak", Rule.cloak),
      ("model", Rule.model), ("text", Rule.text), ("html", Rule.html)] := by
  obtain ⟨before, after, he, -⟩ := List.lookup_eq_some_iff.mp h
  have hmem : (name, rule) ∈ Rule.builtIn.entries := by
    rw [he]
    simp
  exact hmem

namespace Element

variable {r : Respelling} {n : Nat} {e e' : Element}

/-- What a rule gives for elements in two spellings: such elements again, and the same answer whether
the runtime is needed. -/
structure RuledAlike (r : Respelling) (n : Nat) (x x' : Element × Bool) : Prop where
  element : x.1.Respelled r n x'.1
  needed : x'.2 = x.2

namespace Respelled

theorem content (h : e.Respelled r n e') (property : String) (surroundings : Surroundings)
    (d : Directive) (range : Option Range) :
    RuledAlike r n (Rule.content property surroundings e d).value
      (Rule.content property surroundings e' { d with range }).value := by
  refine ⟨?_, rfl⟩
  simp only [Rule.content, Reported.value_pure]
  split
  · exact h
  · exact h.addProperty property _ _ _ false

theorem on (h : e.Respelled r n e') (surroundings : Surroundings) (d : Directive)
    (range : Option Range) :
    RuledAlike r n (Rule.on surroundings e d).value
      (Rule.on surroundings e' { d with range }).value :=
  ⟨h.change (fun el => { el with listenerObject := some d.value }) fun _ => rfl, rfl⟩

theorem bind (h : e.Respelled r n e') (surroundings : Surroundings) (d : Directive)
    (range : Option Range) :
    RuledAlike r n (Rule.bind surroundings e d).value
      (Rule.bind surroundings e' { d with range }).value :=
  ⟨h.change (fun el => { el with boundObject := some _ }) fun _ => rfl, rfl⟩

/-! ## Two-way bindings -/

section

variable (h : e.Respelled r n e')
include h

theorem component (d : Directive) (range : Option Range) :
    (Rule.Model.component e d).Respelled r n (Rule.Model.component e' { d with range }) :=
  h.change (fun el => { el with model := some _ }) fun _ => rfl

theorem writeBack (event code : String) :
    (Rule.Model.writeBack e event code).Respelled r n (Rule.Model.writeBack e' event code) :=
  h.addListener rfl

/-- On a check box or a radio button the values mind how they are spelled. -/
theorem takeBindingOrText_checked (hchecked : r.first.isChecked = true) (x : String)
    (hx : x ∈ ["value", "true-value", "false-value"]) :
    (e'.takeBindingOrText x).1 = (e.takeBindingOrText x).1 ∧
      (e.takeBindingOrText x).2.Respelled r n (e'.takeBindingOrText x).2 := by
  have hnames : ∀ y ∈ ["value", "true-value", "false-value"], Spelling.isFixed y = true ∧ y ≠ "" ∧
      (":" ++ y == ":value" || ":" ++ y == ":true-value" || ":" ++ y == ":false-value") = true := by
    decide
  obtain ⟨hfixed, hempty, hname⟩ := hnames x hx
  refine h.takeBindingOrText_eq hfixed hempty ?_
  rw [Opening.mindsSpelling, hchecked, hname, Bool.and_self, Bool.or_true]

theorem checkbox (hchecked : r.first.isChecked = true) (d : Directive) (range : Option Range) :
    (Rule.Model.checkbox e d).Respelled r n (Rule.Model.checkbox e' { d with range }) := by
  obtain ⟨hvalue, hrest⟩ := h.takeBindingOrText_checked hchecked "value" (by simp)
  obtain ⟨hyes, hmore⟩ := hrest.takeBindingOrText_checked hchecked "true-value" (by simp)
  obtain ⟨hno, hlast⟩ := hmore.takeBindingOrText_checked hchecked "false-value" (by simp)
  simp only [Rule.Model.checkbox, hvalue, hyes, hno]
  exact (hlast.addProperty "checked" _ none none false).writeBack "change" _

theorem radio (hchecked : r.first.isChecked = true) (d : Directive) (range : Option Range) :
    (Rule.Model.radio e d).Respelled r n (Rule.Model.radio e' { d with range }) := by
  obtain ⟨hvalue, hrest⟩ := h.takeBindingOrText_checked hchecked "value" (by simp)
  simp only [Rule.Model.radio, hvalue]
  exact (hrest.addProperty "checked" _ none none false).writeBack "change" _

theorem select (d : Directive) (range : Option Range) :
    (Rule.Model.select e d).Respelled r n (Rule.Model.select e' { d with range }) :=
  h.writeBack "change" _

theorem input (d : Directive) (range : Option Range) :
    (Rule.Model.input e d).Respelled r n (Rule.Model.input e' { d with range }) := by
  have hevent : Rule.Model.inputEvent e' { d with range } = Rule.Model.inputEvent e d := by
    rw [Rule.Model.inputEvent, Rule.Model.inputEvent, h.attribute?_fixed (by decide)]
  have hadded (event code : String) :=
    (h.addProperty "value" ("(" ++ d.value ++ ")") none none false).writeBack event code
  rw [Rule.Model.input, Rule.Model.input, hevent]
  dsimp only
  split
  · exact (hadded _ _).addListener rfl
  · exact hadded _ _

theorem model (hmodel : r.first.written.keys.any Opening.isModel = true)
    (surroundings : Surroundings) (d : Directive) (range : Option Range) :
    RuledAlike r n (Rule.model surroundings e d).value
      (Rule.model surroundings e' { d with range }).value := by
  have hcomponent : e'.component = e.component := h.read Element.component fun _ => rfl
  have htype : e'.attribute? "type" = e.attribute? "type" := h.attribute?_fixed (by decide)
  have hchecked (htag : e.tag = "input")
      (hkind : e.attribute? "type" = some "checkbox" ∨ e.attribute? "type" = some "radio") :
      r.first.isChecked = true := by
    rw [h.tag_eq] at htag
    rw [h.attribute?_eq] at hkind
    rw [Opening.isChecked, htag, hmodel]
    simpa using hkind
  have hvalue (el : Element) (d : Directive) : (Rule.model surroundings el d).value =
      if el.component.isSome then (Rule.Model.component el d, false)
      else if el.tag = "select" then (Rule.Model.select el d, true)
      else if el.tag = "input" && el.attribute? "type" = some "checkbox" then
        (Rule.Model.checkbox el d, true)
      else if el.tag = "input" && el.attribute? "type" = some "radio" then
        (Rule.Model.radio el d, true)
      else if el.tag = "input" || el.tag = "textarea" then (Rule.Model.input el d, true)
      else if surroundings.platform.isReserved el.tag then (el, true)
      else (Rule.Model.component el d, false) := by
    simp only [Rule.model, Reported.value_bind, Reported.value_ite, Reported.value_pure]
  rw [hvalue, hvalue, hcomponent, h.tag, htype]
  split
  · exact ⟨h.component d range, rfl⟩
  split
  · exact ⟨h.select d range, rfl⟩
  split
  · rename_i hbox
    simp only [Bool.and_eq_true, decide_eq_true_eq] at hbox
    exact ⟨h.checkbox (hchecked hbox.1 (.inl hbox.2)) d range, rfl⟩
  split
  · rename_i hbutton
    simp only [Bool.and_eq_true, decide_eq_true_eq] at hbutton
    exact ⟨h.radio (hchecked hbutton.1 (.inr hbutton.2)) d range, rfl⟩
  split
  · exact ⟨h.input d range, rfl⟩
  split
  · exact ⟨h, rfl⟩
  · exact ⟨h.component d range, rfl⟩

/-- Every rule for documents does the same to elements in two spellings. -/
theorem builtIn (surroundings : Surroundings) {d d' : Directive} (hd : d'.unplaced = d.unplaced)
    (hmodel : d.name = "model" → r.first.written.keys.any Opening.isModel = true) {rule : Rule}
    (hrule : Rule.builtIn.get? d.name = some rule) :
    RuledAlike r n (rule surroundings e d).value (rule surroundings e' d').value := by
  obtain ⟨range, rfl⟩ := Directive.exists_range_of_unplaced hd
  have hmem := Rules.mem_builtIn_of_get? hrule
  simp only [List.mem_cons, Prod.mk.injEq, List.not_mem_nil, or_false] at hmem
  rcases hmem with ⟨-, rfl⟩ | ⟨-, rfl⟩ | ⟨-, rfl⟩ | ⟨hname, rfl⟩ | ⟨-, rfl⟩ | ⟨-, rfl⟩
  · exact h.on surroundings d range
  · exact h.bind surroundings d range
  · exact ⟨h, rfl⟩
  · exact h.model (hmodel hname) surroundings d range
  · exact h.content "textContent" surroundings d range
  · exact h.content "innerHTML" surroundings d range

end

end Respelled

end Element

end ViewTemplate

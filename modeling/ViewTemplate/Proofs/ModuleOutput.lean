import Mathlib
import ViewTemplate.Command.Output
import ViewTemplate.Proofs.BalancedCode
import ViewTemplate.Proofs.PrintedJson

/-! # What the printed functions hold

Printed as the source of functions, a compiled template has the code that is reported for it, with one
exception: code whose brackets or quotes are not paired is left out, and the diagnostics do not say so.
Nothing else is left out, so that the printed source is shorter than it should be exactly then.
-/

open List

namespace ViewTemplate

open ViewTemplate.Balanced (IsBalanced)

theorem length_intercalate (separator : String) (parts : List String) :
    (separator.intercalate parts).length =
      (parts.map String.length).sum + (parts.length - 1) * separator.length := by
  induction parts with
  | nil => simp
  | cons part parts ih =>
    cases parts with
    | nil => simp
    | cons other parts =>
      rw [String.intercalate_cons_cons, String.length_append, String.length_append, ih]
      simp only [map_cons, sum_cons, length_cons, Nat.add_sub_cancel,
        Nat.succ_mul]
      omega

namespace Functions

theorem make_of_isBalanced {code : String} (h : IsBalanced code) :
    make .source code = Code.function code := by
  simp only [make, Factory.source, Balanced.fault?_eq_none_iff.mpr h]

theorem make_of_not_isBalanced {code : String} (h : ¬ IsBalanced code) :
    make .source code = Code.function "" := by
  rw [← Balanced.fault?_eq_none_iff] at h
  obtain ⟨fault, hfault⟩ := Option.ne_none_iff_exists'.mp h
  simp only [make, Factory.source, hfault]

/-- A function is no longer than it should be, and as long only if its code is balanced. -/
theorem length_make (code : String) :
    (make .source code).length ≤ (Code.function code).length ∧
      ((make .source code).length = (Code.function code).length → IsBalanced code) := by
  by_cases h : IsBalanced code
  · rw [make_of_isBalanced h]
    exact ⟨Nat.le_refl _, fun _ => h⟩
  · have hne : code.length ≠ 0 := by
      intro hlength
      rw [String.length_eq_zero_iff] at hlength
      exact h (hlength ▸ ⟨rfl⟩)
    rw [make_of_not_isBalanced h]
    simp only [Code.function, String.length_append, String.length_empty]
    omega

theorem sum_length_make (codes : List String) :
    ((codes.map (make .source)).map String.length).sum ≤
        ((codes.map Code.function).map String.length).sum ∧
      (((codes.map (make .source)).map String.length).sum =
          ((codes.map Code.function).map String.length).sum → ∀ code ∈ codes, IsBalanced code) := by
  induction codes with
  | nil => exact ⟨Nat.le_refl _, fun _ => forall_mem_nil _⟩
  | cons code codes ih =>
    have hcode := length_make code
    simp only [map_cons, sum_cons, forall_mem_cons]
    refine ⟨by omega, fun h => ⟨hcode.2 (by omega), ih.2 (by omega)⟩⟩

/-- The functions are those of the code if and only if all of it is balanced. -/
theorem bundle_make_eq_iff (render : String) (functions : List String) :
    Code.bundle (make .source render) (functions.map (make .source)) =
        Code.bundle (Code.function render) (functions.map Code.function) ↔
      ∀ code ∈ render :: functions, IsBalanced code := by
  constructor
  · intro h
    have hlength := congrArg String.length h
    have hrender := length_make render
    have hfunctions := sum_length_make functions
    simp only [Code.bundle, String.length_append, length_intercalate, length_map] at hlength
    rw [forall_mem_cons]
    exact ⟨hrender.2 (by omega), hfunctions.2 (by omega)⟩
  · intro h
    rw [forall_mem_cons] at h
    rw [make_of_isBalanced h.1, map_congr_left fun code hcode => make_of_isBalanced (h.2 code hcode)]

end Functions

namespace Command.Output

/-! ## The report -/

theorem printable_range (range : Range) : range.toJson.Printable := by
  apply Json.Printable.object
  simp only [forall_mem_cons]
  exact ⟨.ofNat _, .ofNat _, forall_mem_nil _⟩

theorem printable_diagnostic (d : Diagnostic) : d.toJson.Printable := by
  apply Json.Printable.object
  simp only [forall_mem_cons]
  refine ⟨.text _, ?_, .text _, forall_mem_nil _⟩
  cases d.range with
  | none => exact .null
  | some range => exact printable_range range

theorem printable_report (c : Compiled) : (report c).Printable := by
  have hlist {α : Type} {write : α → Json} (hwrite : ∀ a, (write a).Printable) (l : List α) :
      (Json.array (l.map write)).Printable := by
    apply Json.Printable.array
    rw [List.forall_mem_map]
    exact fun a _ => hwrite a
  apply Json.Printable.object
  simp only [forall_mem_cons]
  exact ⟨.text _, hlist .text _, hlist printable_diagnostic _, hlist printable_diagnostic _,
    forall_mem_nil _⟩

/-- A printed report gives the code of the render function and of the functions for static content. -/
def Reports (text render : String) (functions : List String) : Prop :=
  ∃ j, Json.read? text = some j ∧ j.get? "render" = some (.text render) ∧
    j.get? "staticRenderFns" = some (.array (functions.map .text))

theorem reports_ofTemplate (config : Config) (template : String) :
    let compiled := compile (Options.web.layered { config }) template
    Reports (ofTemplate .json config template).text compiled.render compiled.functions :=
  ⟨_, Json.read?_pretty (printable_report _), rfl, rfl⟩

/-! ## The source of functions -/

/-- The function that is printed for some code. -/
def printedFunction (code : String) : String :=
  if IsBalanced code then Code.function code else Code.function ""

theorem make_source (code : String) : Functions.make .source code = printedFunction code := by
  rw [printedFunction]
  split
  · rename_i h
    exact Functions.make_of_isBalanced h
  · rename_i h
    exact Functions.make_of_not_isBalanced h

/-- The printed functions have the reported code, except that code which is not balanced is left out.
Whether any is left out shows in no diagnostic: these are the ones that are reported with the code. -/
theorem module_text_exact_iff (config : Config) (template : String) :
    ∃ render functions,
      Reports (ofTemplate .json config template).text render functions ∧
      (ofTemplate .module config template).errors = (ofTemplate .json config template).errors ∧
      (ofTemplate .module config template).text =
        Code.bundle (printedFunction render) (functions.map printedFunction) ∧
      ((ofTemplate .module config template).text =
          Code.bundle (Code.function render) (functions.map Code.function) ↔
        ∀ code ∈ render :: functions, IsBalanced code) := by
  have htext : (ofTemplate .module config template).text =
      Code.bundle (Functions.make .source (compile (Options.web.layered { config }) template).render)
        ((compile (Options.web.layered { config }) template).functions.map
          (Functions.make .source)) := rfl
  refine ⟨_, _, reports_ofTemplate config template, rfl, ?_, ?_⟩
  · rw [htext, make_source, map_congr_left fun code _ => make_source code]
  · rw [htext]
    exact Functions.bundle_make_eq_iff _ _

/-- A call without its closing bracket is left out, and the exit code is that of success. -/
theorem module_of_unclosed_call :
    exitCode (ofTemplate .module {} "<p>\x7b\x7ba(\x7d\x7d</p>").errors = 0 ∧
      (ofTemplate .module {} "<p>\x7b\x7ba(\x7d\x7d</p>").text =
        "\x7brender:function()\x7b\x7d,staticRenderFns:[]\x7d" ∧
      Reports (ofTemplate .json {} "<p>\x7b\x7ba(\x7d\x7d</p>").text
        "with(this)\x7breturn _c('p',[_v(_s(a())])\x7d" [] := by
  have hrender : (compile (Options.web.layered { config := {} }) "<p>\x7b\x7ba(\x7d\x7d</p>").render =
      "with(this)\x7breturn _c('p',[_v(_s(a())])\x7d" := by decide +kernel
  have hfunctions :
      (compile (Options.web.layered { config := {} }) "<p>\x7b\x7ba(\x7d\x7d</p>").functions = [] := by
    decide +kernel
  have hreports := reports_ofTemplate {} "<p>\x7b\x7ba(\x7d\x7d</p>"
  simp only [hrender, hfunctions] at hreports
  exact ⟨by decide +kernel, by decide +kernel, hreports⟩

end Command.Output

end ViewTemplate

import ViewTemplate.Config
import ViewTemplate.Extension.ClassList
import ViewTemplate.Extension.InlineStyle
import ViewTemplate.Rule.BuiltIn

/-! # Options

Everything that a compilation depends on besides the template. Options are layered: what a caller
sets is put on top of base options.
-/

namespace ViewTemplate

/-- The options of a compilation. -/
structure Options where
  expectHtml : Bool := false
  platform : Platform := .bare
  extensions : List Extension := []
  rules : Rules := {}
  /-- Element keys that leave an element static, besides those that always do; commas divide them. -/
  staticKeys : String := ""
  whitespace : Option Whitespace := none
  preserveWhitespace : Bool := true
  optimize : Bool := true
  delimiters : Option Delimiters := none
  comments : Bool := false
  decodeNewlines : Bool := false
  decodeNewlinesForHref : Bool := false
  bindings : Option Bindings := none

/-- What a caller puts on top of base options. -/
structure Overrides where
  config : Config := {}
  extensions : List Extension := []
  rules : Rules := {}

namespace Options

def surroundings (options : Options) : Surroundings where
  platform := options.platform
  delimiters := options.delimiters

/-- The static keys that extensions bring. -/
def staticKeysOf (extensions : List Extension) : String :=
  ",".intercalate (extensions.flatMap Extension.staticKeys)

/-- Options for documents. -/
def web : Options where
  expectHtml := true
  platform := .web
  extensions := [Extension.classList, Extension.inlineStyle]
  rules := Rule.web
  staticKeys := staticKeysOf [Extension.classList, Extension.inlineStyle]

theorem eq_of_mem_web {x : Extension} (hx : x ∈ web.extensions) :
    x = Extension.classList ∨ x = Extension.inlineStyle := by
  simpa [web] using hx

/-- Puts overrides on top. Extensions are added at the end, rules replace those of the same names, and
each field that is set replaces the option; delimiters that cannot be used are passed over. -/
def layered (base : Options) (overrides : Overrides) : Options :=
  let config := overrides.config
  let extensions := base.extensions ++ overrides.extensions
  { base with
    extensions
    staticKeys := if overrides.extensions.isEmpty then base.staticKeys else staticKeysOf extensions
    rules := Rules.layered base.rules overrides.rules
    whitespace := config.whitespace.or base.whitespace
    preserveWhitespace := config.preserveWhitespace.getD base.preserveWhitespace
    optimize := config.optimize.getD base.optimize
    delimiters := (config.delimiters.filter Delimiters.isUsable).or base.delimiters
    comments := config.comments.getD base.comments
    decodeNewlines := config.decodeNewlines.getD base.decodeNewlines
    decodeNewlinesForHref := config.decodeNewlinesForHref.getD base.decodeNewlinesForHref
    bindings := config.bindings.or base.bindings }

end Options

end ViewTemplate

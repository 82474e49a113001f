import ViewTemplate.Expression.Interpolation
import ViewTemplate.Keyed

/-! # Configuration

The part of the options that can be written down. A field that is not set leaves the option as it is.
-/

namespace ViewTemplate

/-- What becomes of blank text between elements. -/
inductive Whitespace
  /-- One space. -/
  | preserve
  /-- Nothing where it holds a line break, otherwise one space. -/
  | condense
  deriving DecidableEq, Repr, Inhabited

/-- How a script binds a name that its template may use. -/
inductive BindingKind
  | data
  | props
  | propsAliased
  | setupLet
  | setupConst
  | setupReactiveConst
  | setupMaybeRef
  | setupRef
  | options
  | literalConst
  deriving DecidableEq, Repr, Inhabited

/-- The names that a script binds. -/
structure Bindings where
  isScriptSetup : Option Bool := none
  kinds : Keyed BindingKind := {}
  deriving DecidableEq, Inhabited

/-- A configuration. -/
structure Config where
  whitespace : Option Whitespace := none
  preserveWhitespace : Option Bool := none
  optimize : Option Bool := none
  delimiters : Option Delimiters := none
  comments : Option Bool := none
  decodeNewlines : Option Bool := none
  decodeNewlinesForHref : Option Bool := none
  bindings : Option Bindings := none
  deriving DecidableEq, Inhabited

namespace Delimiters

/-- Both marks are needed to find the ends of a binding. -/
def isUsable (d : Delimiters) : Bool := d.opening != "" && d.closing != ""

end Delimiters

namespace Config

/-- Whether the delimiters, if set, can be used. -/
def isValid (config : Config) : Bool := config.delimiters.all Delimiters.isUsable

end Config

end ViewTemplate

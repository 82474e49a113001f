import ViewTemplate.Diagnostic
import ViewTemplate.Json

/-! # Diagnostics as JSON
-/

namespace ViewTemplate

def Range.toJson (r : Range) : Json :=
  .object [("start", .ofNat r.start), ("end", .ofNat r.stop)]

def Level.name : Level → String
  | .error => "error"
  | .tip => "tip"

def Diagnostic.toJson (d : Diagnostic) : Json :=
  .object [("msg", .text d.message), ("range", Json.ofOption Range.toJson d.range),
    ("level", .text d.level.name)]

end ViewTemplate

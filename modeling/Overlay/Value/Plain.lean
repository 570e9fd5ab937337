import Overlay.Json.Printer

/-!
# Plain text of a value

The text that a value has inside other text: strings as they are, null as nothing, containers as
compact JSON.
-/

namespace Overlay.Value

def plain : Value → String
  | .null => ""
  | .bool b => if b then "true" else "false"
  | .int n => toString n.toInt
  | .float x => Decimal.plainLayout.render x
  | .string s => s
  | v => Json.compact v

def display (v : Value) : String :=
  Json.compact v

end Overlay.Value

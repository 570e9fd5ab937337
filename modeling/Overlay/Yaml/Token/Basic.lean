/-!
# Tokens of YAML

The indentation of a text is made explicit by tokens that open and close block collections; a key
has a token before it even if the text has no sign there.
-/

namespace Overlay.Yaml

inductive Token where
  | version (major minor : Nat)
  | tagHandle (handle tagStart : String)
  | documentStart
  | documentEnd
  | blockSequence
  | blockMapping
  | blockEnd
  | openSequence
  | closeSequence
  | openMapping
  | closeMapping
  | entry
  | comma
  | key
  | value
  | alias (name : String)
  | anchor (name : String)
  | tag (handle suffix : String)
  | scalar (text : String) (plain : Bool)
deriving DecidableEq, Inhabited

end Overlay.Yaml

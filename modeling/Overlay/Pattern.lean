import Overlay.Value.Basic

/-!
# Patterns

A pattern is a value, and `v.fits p` says that `v` has the structure of `p`. A map pattern asks for
its own entries and allows others; a list pattern asks for an element for each of its own; a scalar
asks for an equal one. A map that is a reference or an encoding is no data and fits nothing.
-/

namespace Overlay.Value

def isDirective : Value → Bool
  | .map [(k, _)] => [Directive.merge, Directive.replace, Directive.encode].contains k
  | _ => false

def inverts (pattern : Entries Value) : Bool :=
  match Entries.lookup Directive.invert pattern with
  | some (.bool b) => b
  | _ => false

mutual
def fits (v : Value) : Value → Bool
  | .map pattern =>
    !v.isDirective && !isDirective (.map pattern) &&
      (match v with
        | .map entries => fitsEntries entries pattern
        | _ => false) != inverts pattern
  | .list pattern =>
    !v.isDirective &&
      match v with
      | .list items => fitsItems items pattern
      | _ => false
  | pattern => !v.isDirective && v.looselyEqual pattern

/-- Whether a map has what every entry of a pattern asks for. Null asks for null or no entry. -/
def fitsEntries (entries : Entries Value) : List (String × Value) → Bool
  | [] => true
  | (k, pattern) :: rest =>
    (k == Directive.invert ||
      match Entries.lookup k entries with
      | some v => fits v pattern
      | none => pattern.isNull) && fitsEntries entries rest

def fitsItems (items : List Value) : List Value → Bool
  | [] => true
  | pattern :: rest => items.any (fun v => fits v pattern) && fitsItems items rest
end

end Overlay.Value

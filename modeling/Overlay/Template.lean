import Overlay.Text.Blank
import Overlay.Text.Line

/-!
# Templates

A string between `$"` and `"` is a template: what stands between braces in it, without further
braces, is an expression, and all else is text. The text of an expression is put in its place once
and not read again.
-/

namespace Overlay.Template

inductive Piece where
  | text (s : List Char)
  | expression (s : List Char)
deriving DecidableEq

def body? (s : String) : Option (List Char) :=
  match Text.after? ['$', '\x22'] s.toList with
  | some inner => if inner.getLast? = some '\x22' then some inner.dropLast else none
  | none => none

/-- The parts of a template. `pending` is what has come after a brace that may open an expression,
last character first. -/
def scan (pending : Option (List Char)) : List Char → List Piece
  | [] =>
    match pending with
    | none => []
    | some p => [.text ('\x7b' :: p.reverse)]
  | c :: s =>
    match pending with
    | none => if c = '\x7b' then scan (some []) s else .text [c] :: scan none s
    | some p =>
      if c = '\x7d' then .expression p.reverse :: scan none s
      else if c = '\x7b' then .text ('\x7b' :: p.reverse) :: scan (some []) s
      else scan (some (c :: p)) s

def pieces (s : List Char) : List Piece :=
  scan none s

end Overlay.Template

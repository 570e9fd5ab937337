import Overlay.KeyPath
import Overlay.Text.Blank
import Overlay.Text.Line
import Overlay.Value.Plain

/-!
# Properties

Lines of a dotted key and a text. A key of several segments stands for maps inside maps. All values
read are strings.
-/

namespace Overlay.Properties

/-- Binds a text under the segments of a key. What is no map on the way gives place to one. -/
def insertDotted (v : Value) : List String → Entries Value → Entries Value
  | [], entries => entries
  | [key], entries => Entries.insert key v entries
  | key :: rest, entries =>
    let inner := match Entries.lookup key entries with
      | some (.map inner) => inner
      | _ => []
    Entries.insert key (.map (insertDotted v rest inner)) entries

def binding? (line : List Char) : Option (List String × String) :=
  let line := Text.trim line
  match line with
  | [] | '#' :: _ | '!' :: _ => none
  | _ =>
    let (key, text) := match Text.cut (fun c => c = '=' || c = ':') line with
      | some (key, text) => (Text.trim key, Text.trim text)
      | none => (line, [])
    some ((Text.fields '.' key).map String.ofList, String.ofList text)

def parse (text : String) : Value :=
  .map <| (Text.lines text.toList).foldl (fun entries line =>
    match binding? line with
    | some (key, text) => insertDotted (.string text) key entries
    | none => entries) []

mutual
def flatten (path : String) : Value → List String
  | .map entries => flattenEntries path entries
  | .list items => flattenItems path 0 items
  | v => [path ++ "=" ++ v.plain]

def flattenEntries (path : String) : List (String × Value) → List String
  | [] => []
  | (k, v) :: rest => flatten (KeyPath.child path k) v ++ flattenEntries path rest

def flattenItems (path : String) (position : Nat) : List Value → List String
  | [] => []
  | v :: rest => flatten (KeyPath.item path position) v ++ flattenItems path (position + 1) rest
end

def render (v : Value) : String :=
  Text.joined "\n" (flatten "" v)

end Overlay.Properties

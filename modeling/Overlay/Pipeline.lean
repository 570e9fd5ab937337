import Overlay.Digest.Sha256
import Overlay.Format
import Overlay.Text.Base64

/-!
# Pipelines

A pipeline turns a value into another by stages, written with commas between them. A stage is a name
that an argument may follow after a colon. A name that is none of the stages here is the name of a
format: the value becomes its text.
-/

namespace Overlay

structure Stage where
  text : String
  name : String
  argument : Option String
deriving DecidableEq

namespace Stage

def ofText (text : List Char) : Stage :=
  match Text.cut (· = ':') text with
  | some (name, argument) =>
    ⟨String.ofList text, String.ofList (Text.trim name), some (String.ofList argument)⟩
  | none => ⟨String.ofList text, String.ofList (Text.trim text), none⟩

def subject (s : Stage) : String :=
  "encode stage \x27" ++ s.text ++ "\x27"

def entriesOf (s : Stage) : Value → Result (Entries Value)
  | .map entries => .ok entries
  | v => .error (.of (.wrongKind s.subject "a map" v.kind))

def itemsOf (s : Stage) : Value → Result (List Value)
  | .list items => .ok items
  | v => .error (.of (.wrongKind s.subject "a list" v.kind))

def delimiter (s : Stage) : Result String :=
  match s.argument with
  | some text => .ok text
  | none => .error (.of (.missingDelimiter s.text))

def spread : Value → List Value
  | .list items => items
  | v => [v]

/-- The command line flags of an entry: none if it is off, the bare flag if it is on. -/
def flags (key : String) : Value → List Value
  | .null | .bool false => []
  | .bool true => [.string ("--" ++ key)]
  | v => (spread v).map fun x => .string ("--" ++ key ++ "=" ++ x.plain)

/-- Binds a value at the end of a path of keys. Missing maps on the way are made. -/
def insertAt (v : Value) : List String → Value → Result Value
  | [], target => .ok target
  | [key], .map entries => .ok (.map (Entries.insert key v entries))
  | [_], target => .error (.of (.wrongKind "values name key" "map items" target.kind))
  | key :: rest, .map entries => do
    let inner ← insertAt v rest ((Entries.lookup key entries).getD (.map []))
    return .map (Entries.insert key inner entries)
  | _, _ => .error (.of (.wrongKind "values name key" "map items" "a non-map value"))

def valueKeys (s : Stage) : Option (List String) × Option String :=
  let argument := (s.argument.getD "").toList
  let (name, value) := (Text.cut (· = ':') argument).getD (argument, [])
  (if name.isEmpty then none else some ((Text.fields '.' name).map String.ofList),
    if value.isEmpty then none else some (String.ofList value))

def valueItem (nameKey : Option (List String)) (valueKey : Option String) (key : String)
    (v : Value) : Result Value :=
  let item := match valueKey with
    | some k => .map [(k, v)]
    | none => v
  match nameKey with
  | some path => insertAt (.string key) path item
  | none => .ok item

/-- The text of a value in a format. JSON in one line is not closed by a line feed. -/
def formatted (s : Stage) (v : Value) : Result Value := do
  let format ← Format.ofName (String.ofList (Text.trim s.text.toList))
  let text ← format.encode v
  return match format with
    | .json | .jsonLines => .string (String.ofList text.toList.dropLast)
    | _ => .string text

def apply (s : Stage) (v : Value) : Result Value :=
  match s.name with
  | "base64" => .ok (.string (String.ofList (Text.Base64.encode v.plain.toUTF8.toList)))
  | "sha256" => .ok (.string (Sha256.hexDigest v.plain.toUTF8.toList))
  | "flags" => do
    let entries ← s.entriesOf v
    return .list (entries.flatMap fun (k, x) => flags k x)
  | "tolist" => do
    let delimiter ← s.delimiter
    let entries ← s.entriesOf v
    return .list (entries.map fun (k, x) => .string (k ++ delimiter ++ x.plain))
  | "prefix" => do
    let delimiter ← s.delimiter
    let entries ← s.entriesOf v
    return .list <| entries.flatMap fun (k, x) =>
      (spread x).map fun y => .string (k ++ delimiter ++ y.plain)
  | "flatten" => do
    let items ← s.itemsOf v
    return .list (items.flatMap spread)
  | "join" => do
    let items ← s.itemsOf v
    return .string (Text.joined (s.argument.getD ",") (items.map Value.plain))
  | "values" => do
    let entries ← s.entriesOf v
    let (nameKey, valueKey) := s.valueKeys
    return .list (← entries.mapM fun (k, x) => valueItem nameKey valueKey k x)
  | _ => s.formatted v

end Stage

namespace Pipeline

def stages (pipeline : String) : Result (List Stage) :=
  let texts := (Text.fields ',' pipeline.toList).map Text.trimStart
  if texts.any fun t => t.isEmpty then .error (.of (.emptyStage pipeline))
  else .ok (texts.map Stage.ofText)

def run (pipeline : String) (v : Value) : Result Value := do
  (← stages pipeline).foldlM (fun v s => s.apply v) v

end Pipeline

end Overlay

import Overlay.Error
import Overlay.Files.Path
import Overlay.Json.Parser
import Overlay.Properties
import Overlay.Toml.Printer
import Overlay.Toml.Reader
import Overlay.Yaml.Printer
import Overlay.Yaml.Reader

/-!
# Formats

The syntaxes that documents are read and written in. A text may hold several documents: between them
stands a line of three hyphens, and in JSON lines each line is a document of its own. Documents
without content, and those that are null, do not count.
-/

namespace Overlay

inductive Format where
  | yaml
  | json
  | jsonPretty
  | jsonLines
  | toml
  | properties
deriving DecidableEq, Inhabited

namespace Format

def name : Format → String
  | yaml => "yaml"
  | json => "json"
  | jsonPretty => "json-pretty"
  | jsonLines => "jsonl"
  | toml => "toml"
  | properties => "properties"

def ofName (name : String) : Result Format :=
  match name.toLower with
  | "yaml" | "yml" => .ok yaml
  | "json" => .ok json
  | "json-pretty" => .ok jsonPretty
  | "jsonl" => .ok jsonLines
  | "toml" => .ok toml
  | "properties" => .ok properties
  | _ => .error (.of (.unknownFormat name))

def ofPath (path : String) : Result Format :=
  match Path.extension? path with
  | none => .error (.about (.invalidFilename path "missing file extension") path)
  | some extension => (ofName extension).mapError (Error.defaultFile path)

def defaultExtensions : List String :=
  ["yaml", "yml", "json", "jsonl", "toml", "properties"]

def separator := "---"

def closed (text : String) : String :=
  if text.endsWith "\n" then text else text ++ "\n"

def decode (format : Format) (text : String) : Result Value :=
  let value? := match format with
    | yaml => Yaml.parse? text
    | json | jsonPretty | jsonLines => Json.parse? text
    | toml => Toml.parse? text
    | properties => some (Properties.parse text)
  match value? with
  | some v => .ok v
  | none => .error (.of .unreadable)

def encode (format : Format) (v : Value) : Result String :=
  let text? := match format with
    | yaml => some (Yaml.render v)
    | json | jsonLines => some (Json.compact v)
    | jsonPretty => some (Json.pretty v)
    | toml => Toml.render? v
    | properties => some (Properties.render v)
  match text? with
  | some text => .ok (closed text)
  | none => .error (.of .unwritable)

def chunks : List (List Char) → List (List (List Char))
  | [] => [[]]
  | line :: rest =>
    if Text.trimEnd line = separator.toList then [] :: chunks rest
    else
      match chunks rest with
      | [] => [[line]]
      | chunk :: others => (line :: chunk) :: others

def isContent (line : List Char) : Bool :=
  match Text.trim line with
  | [] | '#' :: _ => false
  | _ => true

def documentTexts (format : Format) (text : String) : List String :=
  let lines := Text.lines text.toList
  let parts := match format with
    | jsonLines => (lines.filter fun line => !(Text.trim line).isEmpty).map fun line => [line]
    | _ => chunks lines
  (parts.filter fun part => part.any isContent).map fun part =>
    match format with
    | jsonLines => String.ofList part.flatten
    | _ => String.ofList (part.flatMap fun line => line ++ ['\n'])

def decodeStream (format : Format) (text : String) : Result (List Value) := do
  let values ← (documentTexts format text).mapM format.decode
  return values.filter fun v => !v.isNull

def encodeStream (format : Format) (values : List Value) : Result String := do
  let texts ← values.mapM format.encode
  return match format with
    | jsonLines => String.join texts
    | _ => Text.joined (separator ++ "\n") texts

end Format

end Overlay

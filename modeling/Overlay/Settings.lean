import Overlay.Files.Path
import Overlay.Files.Store
import Overlay.Format
import Overlay.Word

/-!
# Settings

Settings are read from a YAML mapping, in which each of the known keys may stand once and unknown
ones do not count. Variables of the process override them.
-/

namespace Overlay

structure Settings where
  recursionLimit : Nat := 1000
  outputFormat : Option String := none
  extensions : List String := Format.defaultExtensions
  inheritsEnvironment : Bool := true
deriving DecidableEq

namespace Settings

open Yaml (Node Aliases)

def text? : Node Nat → Option String
  | .scalar text _ _ _ => some text
  | _ => none

/-- The text of a scalar, or that it is null. A tag other than that of null makes it a text. -/
def optionalText? : Node Nat → Option (Option String)
  | .scalar text true (some tag) _ =>
    if tag ≠ Yaml.coreTag "null" then some (some text)
    else if text ≠ "" ∧ Yaml.isNullText text then some none
    else none
  | .scalar text plain _ _ => some (if plain && Yaml.isNullText text then none else some text)
  | _ => none

def count? : Node Nat → Option Nat
  | .scalar text true _ _ => do
    let n ← if text.startsWith "-" then none else Yaml.integer? text.toList
    if n < Word.size then some n.toNat else none
  | _ => none

def flag? : Node Nat → Option Bool
  | .scalar text true _ _ => Yaml.bool? text
  | _ => none

def texts? (a : Aliases) : Node Nat → StateT Nat Option (List String)
  | .scalar "" true _ _ => return []
  | .sequence items _ _ => items.mapM fun item => do text? (← a.follow item)
  | _ => failure

def field? (a : Aliases) (s : Settings) (key : String) (v : Node Nat) :
    StateT Nat Option Settings := do
  match key with
  | "recursion_limit" => return { s with recursionLimit := ← count? (← a.follow v) }
  | "output_format" => return { s with outputFormat := ← optionalText? (← a.follow v) }
  | "extensions" => return { s with extensions := ← texts? a (← a.follow v) }
  | "inherit_env" => return { s with inheritsEnvironment := ← flag? (← a.follow v) }
  | _ => return s

def knownKeys : List String :=
  ["recursion_limit", "output_format", "extensions", "inherit_env"]

def pairs? (a : Aliases) (s : Settings) (seen : List String) :
    List (Node Nat × Node Nat) → StateT Nat Option Settings
  | [] => return s
  | (key, v) :: rest => do
    let name ← text? (← a.follow key)
    if seen.contains name then failure
    let s ← field? a s name v
    pairs? a s (if knownKeys.contains name then name :: seen else seen) rest

def ofNode? (a : Aliases) : Node Nat → StateT Nat Option Settings
  | .scalar "" true _ _ => return {}
  | .mapping pairs _ _ => pairs? a {} [] pairs
  | _ => failure

def parse? (text : String) : Option Settings := do
  let tokens ← Yaml.tokens? text
  let root ← Node.document? tokens
  let (root, _) ← Node.number [] root
  let aliases : Aliases := ⟨root.anchored, 100 * root.events⟩
  let (s, _) ← (do ofNode? aliases (← aliases.follow root)).run 0
  some s

def parse (text : String) : Result Settings :=
  if (Text.trim text.toList).isEmpty then .ok {}
  else
    match parse? text with
    | some s => .ok s
    | none => .error (.of .unreadable)

/-- Overrides settings by variables. A limit that is no number does not count. -/
def override (lookup : String → Option String) (s : Settings) : Settings :=
  let limit := do
    let n ← Text.readCount? (Text.trim (← lookup "STRATA_RECURSION_LIMIT").toList)
    if n < Word.size then some n else none
  { s with
    recursionLimit := limit.getD s.recursionLimit
    outputFormat := (lookup "STRATA_FORMAT").or s.outputFormat }

def format? (s : Settings) : Result (Option Format) :=
  match s.outputFormat with
  | none => .ok none
  | some name => some <$> Format.ofName name

def validate (s : Settings) : Result Unit := do
  if s.extensions.isEmpty then .error (.of .noExtensions)
  discard s.format?

/-- The format to write: the one asked for, the one set, or that of the first input. -/
def resolveFormat (s : Settings) (explicit firstInput : Option String) : Result Format :=
  match explicit with
  | some name => Format.ofName name
  | none => do
    match ← s.format?, firstInput with
    | some format, _ => return format
    | none, some path => Format.ofPath path
    | none, none => return .yaml

variable {m : Type → Type} [Monad m]

def load (r : FileReader m) (lookup : String → Option String) (path : String) :
    m (Result Settings) := do
  match ← r.readText path with
  | .error refusal => return .error (.refused path refusal)
  | .ok text =>
    return ((parse text).mapError (Error.defaultFile path)).map (override lookup)

def userPath? (lookup : String → Option String) : Option String :=
  let configuration := match (lookup "XDG_CONFIG_HOME").filter Path.isAbsolute with
    | some path => some path
    | none => ((lookup "HOME").filter (· ≠ "")).map fun home => Path.join home ".config"
  configuration.map fun path => Path.join (Path.join path "strata") "settings.yaml"

/-- The settings of the file that a variable names, of the user's file, or none of their own. -/
def loadDefault (files : FileStore m) (lookup : String → Option String) :
    m (Result Settings) := do
  match lookup "STRATA_SETTINGS", userPath? lookup with
  | some path, _ => load files.toFileReader lookup path
  | none, some path =>
    if ← files.isThere path then load files.toFileReader lookup path
    else return .ok (override lookup {})
  | none, none => return .ok (override lookup {})

end Settings

end Overlay

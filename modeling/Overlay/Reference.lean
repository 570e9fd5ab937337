import Overlay.Assembly
import Overlay.Environment
import Overlay.Text.Blank
import Overlay.Yaml.Reader

/-!
# References

A reference names a value: by a dotted path into the document it stands in, by a list that may start
with a pattern for another document, or by a map with such a pattern and a path. A string in the
syntax of a list or map stands for that.
-/

namespace Overlay

/-- A document, and the assembly that its references lead into. -/
structure Site where
  assembly : Assembly
  document : Nat

namespace Reference

/-- The segments of a dotted path; empty ones do not count. -/
def splitPath (path : String) : List String :=
  ((Text.fields '.' path.toList).filter fun s => !s.isEmpty).map String.ofList

def structured? (text : String) : Option Value :=
  match Text.trimStart text.toList with
  | '[' :: _ | '\x7b' :: _ =>
    match Yaml.parse? text with
    | some (.list items) => some (.list items)
    | some (.map entries) => some (.map entries)
    | _ => none
  | _ => none

def child? (segment : String) : Value → Option Value
  | .map entries => Entries.lookup segment entries
  | .list items => (Text.readCount? segment.toList).bind fun i => items[i]?
  | _ => none

def follow? (v : Value) : List String → Option Value
  | [] => some v
  | segment :: rest => (child? segment v).bind fun x => follow? x rest

def walk (c : Corpus) (id : Nat) (path : List String) (reference : String) : Result Value :=
  match follow? (c.data id) path with
  | some v => .ok v
  | none => .error (.of (.danglingReference reference))

/-- The one document of the outcome that fits a pattern. Fitting ones among the document of a site
and its ancestors are preferred. -/
def select (site : Site) (pattern : Value) : Result Nat :=
  let near := site.document :: site.assembly.corpus.ancestors site.document
  match Assembly.preferring near (site.assembly.fitting pattern) with
  | [] => .error (.of (.referenceUnmatched pattern))
  | [id] => .ok id
  | ids => .error (.of (.referenceAmbiguous pattern ids.length))

def segments : List Value → Result (List String)
  | [] => .ok []
  | .string s :: rest => do return splitPath s ++ (← segments rest)
  | .int n :: rest => do return toString n.toInt :: (← segments rest)
  | v :: _ => .error (.of (.wrongKind "reference segment" "a string or integer" v.kind))

def resolveList (site : Site) (items : List Value) : Result Value := do
  let (target, rest) ← match items with
    | .map pattern :: rest => do pure (← select site (.map pattern), rest)
    | _ => pure (site.document, items)
  walk site.assembly.corpus target (← segments rest) (Value.list items).display

def resolveMap (site : Site) (entries : Entries Value) : Result Value :=
  match Entries.without [Directive.matchOne, Directive.path] entries with
  | [] => do
    let target ← select site ((Entries.lookup Directive.matchOne entries).getD (.map []))
    let path ← match Entries.lookup Directive.path entries with
      | none | some .null => pure []
      | some (.string p) => pure (splitPath p)
      | some v => .error (.of (.wrongKind Directive.path "a dotted path" v.kind))
    walk site.assembly.corpus target path (Value.map entries).display
  | extra => .error (.of (.extraKeys Directive.matchOne (Entries.keys extra)))

def resolve (site : Site) : Value → Result Value
  | .string s =>
    match structured? s with
    | some (.list items) => resolveList site items
    | some (.map entries) => resolveMap site entries
    | _ => walk site.assembly.corpus site.document (splitPath s) s
  | .list items => resolveList site items
  | .map entries => resolveMap site entries
  | v => .error (.of (.wrongKind "reference" "a path, list or \x7b$match, $path\x7d map" v.kind))

def resolveAt (site : Site) (reference : Value) (path : String) : Result Value :=
  (resolve site reference).mapError (Error.defaultPath path)

/-- The value of a variable, or else what a reference refers to. -/
def resolveIn (site : Site) (env : Environment) (reference : String) : Result Value :=
  match Entries.lookup reference env with
  | some v => .ok v
  | none =>
    match resolve site (.string reference) with
    | .ok v => .ok v
    | .error e =>
      if reference.startsWith "$" then .error (.of (.unboundVariable reference)) else .error e

end Reference

end Overlay

import Overlay.Corpus
import Overlay.Files.Path
import Overlay.Files.Store
import Overlay.Format

/-!
# Loading files with their ancestors

A file inherits from the files that its documents declare, or else from the one that its name says:
`base.layer.ext` inherits from `base`, with any of the known extensions. A link goes by the name of
its target. Parents are loaded before their children and no file is loaded twice.
-/

namespace Overlay

variable {m : Type → Type} [Monad m]

structure Loader where
  extensions : List String
  corpus : Corpus := {}
  order : List Nat := []
  loaded : List (String × List Nat) := []
  /-- The files whose ancestors are being loaded, outermost first. -/
  stack : List String := []

namespace Loader

/-- What identifies a file: its directory without links and its name. A link and its target are two
files. -/
def identity (r : FileReader m) (path : String) : m String := do
  let directory := match Path.parent? path with
    | none | some "" => "."
    | some directory => directory
  match ← r.canonical? directory, Path.fileName? path with
  | some directory, some name => return Path.join directory name
  | _, _ => return path

def readDocuments (r : FileReader m) (path : String) : m (Result (List Value)) := do
  match Format.ofPath path with
  | .error e => return .error e
  | .ok format =>
    match ← r.readText path with
    | .error refusal => return .error (.refused path refusal)
    | .ok text => return (format.decodeStream text).mapError (Error.defaultFile path)

def parentNames : List Value → Result (List String)
  | [] => .ok []
  | .string name :: rest => do return name :: (← parentNames rest)
  | .null :: _ | .bool false :: _ => .error (.of .parentsMixed)
  | v :: _ => .error (.of (.wrongKind Directive.parent "a path" v.kind))

def parentage : Value → Result Parentage
  | .null | .bool false => .ok .none
  | .string name => .ok (.names [name])
  | .list items => Parentage.names <$> parentNames items
  | v => .error (.of (.wrongKind Directive.parent "a path, a list of paths, false or null" v.kind))

/-- The declaration that all documents share that make one, given the one made before them. -/
def declared (before : Option Parentage) : List Value → Result (Option Parentage)
  | [] => .ok before
  | v :: rest =>
    match v.entry? Directive.parent with
    | none => declared before rest
    | some raw => do
      let p ← parentage raw
      match before with
      | some q => if q = p then declared (some p) rest else .error (.of (.parentsDiffer q p))
      | none => declared (some p) rest

def filesAmong (r : FileReader m) : List String → m (List String)
  | [] => return []
  | path :: rest => do
    let isFile ← r.isFile path
    let others ← filesAmong r rest
    return if isFile then path :: others else others

/-- The file that a name means in a directory: the one of that name, or else the one that the name
and an extension make up. -/
def resolve (r : FileReader m) (extensions : List String) (directory name : String) :
    m (Result String) := do
  let direct := Path.join directory name
  if ← r.isFile direct then return .ok direct
  match ← filesAmong r (extensions.map fun ext => Path.join directory (name ++ "." ++ ext)) with
  | [] => return .error (.about (.missingFile direct) direct)
  | [found] => return .ok found
  | found => return .error (.about (.parentAmbiguous direct found.length) direct)

def resolveAll (r : FileReader m) (extensions : List String) (directory : String) :
    List String → m (Result (List String))
  | [] => return .ok []
  | name :: rest => do
    match ← resolve r extensions directory name with
    | .error e => return .error e
    | .ok path => return (path :: ·) <$> (← resolveAll r extensions directory rest)

def directoryOf (path : String) : String :=
  (Path.parent? path).getD ""

def baseName? (path : String) : Result (Option String) :=
  match Path.fileName? path with
  | none => .error (.about (.invalidFilename path "file name is not valid UTF-8") path)
  | some name =>
    let segments := (Text.fields '.' name.toList).map String.ofList
    if segments.any fun s => s.isEmpty then
      .error (.about (.invalidFilename path "empty dot-separated segment") path)
    else if segments.length < 3 then .ok none
    else .ok (some (Text.joined "." (segments.take (segments.length - 2))))

/-- The parent that the name of a file itself says. -/
def namedParent (r : FileReader m) (extensions : List String) (path : String) :
    m (Result (List String)) :=
  match baseName? path with
  | .error e => return .error e
  | .ok none => return .ok []
  | .ok (some name) => resolveAll r extensions (directoryOf path) [name]

def conventional (r : FileReader m) (extensions : List String) :
    Nat → String → m (Result (List String))
  | 0, path => do
    match ← r.linkTarget? path with
    | some _ => return .error (.about (.circularParents [path]) path)
    | none => namedParent r extensions path
  | links + 1, path => do
    match ← r.linkTarget? path with
    | some target => conventional r extensions links (Path.join (directoryOf path) target)
    | none => namedParent r extensions path

def maxLinks : Nat := 40

def parentsOf (r : FileReader m) (extensions : List String) (path : String)
    (values : List Value) : m (Result (List String)) := do
  match declared none values with
  | .error e => return .error e
  | .ok (some .none) => return .ok []
  | .ok (some (.names names)) => resolveAll r extensions (directoryOf path) names
  | .ok none => conventional r extensions maxLinks path

def survey (r : FileReader m) (extensions : List String) (path : String) :
    m (Result (List Value × List String)) := do
  match ← readDocuments r path with
  | .error e => return .error e
  | .ok values =>
    let parents := (← parentsOf r extensions path values).mapError (Error.defaultFile path)
    return parents.map fun ps => (values, ps)

def addFile (l : Loader) (key path : String) (values : List Value) (parents : List Nat) : Loader :=
  let ids := List.range' l.corpus.size values.length
  let corpus := values.zipIdx.foldl (fun (c : Corpus) (v, i) =>
    c.add (path ++ "#" ++ toString i) v parents) l.corpus
  { l with corpus, order := l.order ++ ids, loaded := (key, ids) :: l.loaded }

def push (l : Loader) (key : String) : Loader :=
  { l with stack := l.stack ++ [key] }

def pop (l : Loader) : Loader :=
  { l with stack := l.stack.dropLast }

/-- A path leads back to a file whose ancestors are being loaded. -/
def circle (l : Loader) (path : String) : Error :=
  .about (.circularParents (l.stack ++ [path])) path

def loadAll (load : String → Loader → m (Result (List Nat) × Loader)) :
    List String → Loader → m (Result (List Nat) × Loader)
  | [], l => return (.ok [], l)
  | path :: rest, l => do
    match ← load path l with
    | (.error e, l) => return (.error e, l)
    | (.ok ids, l) =>
      let (others, l) ← loadAll load rest l
      return ((ids ++ ·) <$> others, l)

/-- Loads a file and its ancestors, whose depth is limited. What was loaded stays so after an error. -/
def loadWithin (r : FileReader m) : Nat → String → Loader → m (Result (List Nat) × Loader)
  | 0, path, l => return (.error (l.circle path), l)
  | depth + 1, path, l => do
    let key ← identity r path
    if l.stack.contains key then return (.error (l.circle path), l)
    match l.loaded.lookup key with
    | some ids => return (.ok ids, l)
    | none =>
      match ← survey r l.extensions path with
      | .error e => return (.error e, l)
      | .ok (values, parents) =>
        match ← loadAll (loadWithin r depth) parents (l.push key) with
        | (.error e, l) => return (.error e, l.pop)
        | (.ok ids, l) =>
          return (.ok (List.range' l.corpus.size values.length), l.pop.addFile key path values ids)

/-- Loads a file and its ancestors, of which there are no more than files that can be told apart. -/
def load (r : FileReader m) (path : String) (l : Loader) : m (Result (List Nat) × Loader) :=
  loadWithin r (r.bound + 1) path l

end Loader

end Overlay

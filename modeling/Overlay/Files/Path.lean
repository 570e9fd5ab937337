import Overlay.Text.Line

/-!
# File paths

A path is text whose segments stand between slashes. Empty segments and dots say nothing, but for a
dot at the start; nothing else is resolved here.
-/

namespace Overlay.Path

def isAbsolute (path : String) : Bool :=
  path.startsWith "/"

def join (directory path : String) : String :=
  if isAbsolute path || directory = "" then path
  else if directory.endsWith "/" then directory ++ path
  else directory ++ "/" ++ path

def isIdle (segment : String) : Bool :=
  segment = "" || segment = "."

/-- All that stands between the slashes of a path. -/
def fields (path : String) : List String :=
  (Text.fields '/' path.toList).map String.ofList

/-- The start of a path that is no segment, and the segments after it. -/
def anatomy (path : String) : String × List String :=
  let split (s : List Char) := (Text.fields '/' s).map String.ofList
  match path.toList with
  | '/' :: s => ("/", split s)
  | ['.'] => (".", [])
  | '.' :: '/' :: s => (".", split ('/' :: s))
  | s => ("", split s)

def trimIdle (segments : List String) : List String :=
  (segments.reverse.dropWhile isIdle).reverse

def split? (path : String) : Option (String × String) :=
  let (start, segments) := anatomy path
  match (trimIdle segments).reverse with
  | last :: before => some (start ++ Text.joined "/" (trimIdle before.reverse), last)
  | [] => if start = "." then some ("", ".") else none

def parent? (path : String) : Option String :=
  (split? path).map Prod.fst

def fileName? (path : String) : Option String :=
  match split? path with
  | some (_, last) => if last = "." || last = ".." then none else some last
  | none => none

def extension? (path : String) : Option String := do
  let name ← fileName? path
  match (Text.fields '.' name.toList).reverse with
  | last :: before :: more =>
    if before.isEmpty && more.isEmpty then none else some (String.ofList last)
  | _ => none

def segments (path : String) : List String :=
  (anatomy path).2.filter fun s => !isIdle s

end Overlay.Path

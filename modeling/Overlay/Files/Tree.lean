import Overlay.Files.Path
import Overlay.Files.Store

/-!
# Trees of files in memory

A tree holds files, directories and symbolic links. It is given with the absolute path of the working
directory, which is there with all directories above it. Paths are followed as the system does:
segment by segment, from the root if they are absolute, a link giving place to its target, up to
forty links.
-/

namespace Overlay

inductive FileTree.Node where
  | file (content : ByteArray)
  | directory
  | link (target : String)

structure FileTree where
  home : String
  nodes : List (List String × FileTree.Node) := []

namespace FileTree

/-- A place that a path leads to: the segments from the root. -/
abbrev Place := List String

/-- The place of the working directory. -/
def here (t : FileTree) : Place :=
  Path.segments t.home

/-- The absolute path of a place. It starts as that of the working directory does. -/
def pathTo (t : FileTree) (p : Place) : String :=
  (Path.anatomy t.home).1 ++ Text.joined "/" p

def node? (t : FileTree) (p : Place) : Option Node :=
  if p <+: t.here then some .directory else t.nodes.lookup p

/-- Where a path that is found at a place is followed from. -/
def origin (path : String) (p : Place) : Place :=
  if Path.isAbsolute path then [] else p

/-- Follows segments from a place. A link is followed by `next`; the last segment is left as it is
if it is a link and `follow` is not set, or if there is nothing of its name. -/
def walkWith (t : FileTree) (follow : Bool) (next : Place → List String → Except Refusal Place)
    (p : Place) : List String → Except Refusal Place
  | [] => .ok p
  | segment :: rest =>
    match t.node? p with
    | some .directory =>
      if Path.isIdle segment then walkWith t follow next p rest
      else if segment = ".." then walkWith t follow next p.dropLast rest
      else
        match t.node? (p ++ [segment]) with
        | some (.link target) =>
          if rest.isEmpty && !follow then .ok (p ++ [segment])
          else next (origin target p) (Path.fields target ++ rest)
        | some _ => walkWith t follow next (p ++ [segment]) rest
        | none => if rest.isEmpty then .ok (p ++ [segment]) else .error .missing
    | some _ => .error .notDirectory
    | none => .error .missing

def walk (t : FileTree) (follow : Bool) : Nat → Place → List String → Except Refusal Place
  | 0 => t.walkWith follow fun _ _ => .error .tooManyLinks
  | links + 1 => t.walkWith follow (walk t follow links)

/-- The place that a path leads to. Nothing needs to be there but the directories on the way. -/
def locate (t : FileTree) (follow : Bool) (path : String) : Except Refusal Place :=
  if path = "" then .error .missing
  else t.walk follow 40 (origin path t.here) (Path.fields path)

def look (t : FileTree) (path : String) : Except Refusal (Place × Node) := do
  let p ← t.locate true path
  match t.node? p with
  | some n => return (p, n)
  | none => .error .missing

def put (t : FileTree) (p : Place) (n : Node) : FileTree :=
  { t with nodes := (p, n) :: t.nodes.filter fun e => e.1 ≠ p }

def makeAbove (t : FileTree) (p : Place) : FileTree :=
  (List.range p.length).foldl (fun t i =>
    let above := p.take i
    if (t.node? above).isSome then t else t.put above .directory) t

def add (t : FileTree) (path : String) (n : Node) : FileTree :=
  let p := origin path t.here ++ Path.segments path
  (t.makeAbove p).put p n

def readText (t : FileTree) (path : String) : Except Refusal String := do
  match (← t.look path).2 with
  | .file content =>
    match String.fromUTF8? content with
    | some text => return text
    | none => .error .notText
  | _ => .error .isDirectory

def isFile (t : FileTree) (path : String) : Bool :=
  match t.look path with
  | .ok (_, .file _) => true
  | _ => false

def isThere (t : FileTree) (path : String) : Bool :=
  (t.look path).toBool

def linkTarget? (t : FileTree) (path : String) : Option String :=
  match t.locate false path with
  | .ok p =>
    match t.node? p with
    | some (.link target) => some target
    | _ => none
  | .error _ => none

def canonical? (t : FileTree) (path : String) : Option String :=
  match t.look path with
  | .ok (p, _) => some (t.pathTo p)
  | .error _ => none

def unslashed (path : String) : String :=
  String.ofList (path.toList.reverse.dropWhile (· = '/')).reverse

/-- Changes the file that a path leads to, or makes it of nothing. A slash at the end asks for a
directory, which is not made. -/
def change (t : FileTree) (path : String) (update : ByteArray → ByteArray) :
    Except Refusal FileTree := do
  let bare := unslashed path
  if bare ≠ path then
    if bare ≠ "" then discard (t.locate true bare)
    .error .isDirectory
  let p ← t.locate true path
  match t.node? p with
  | some (.file content) => return t.put p (.file (update content))
  | some _ => .error .isDirectory
  | none => return t.put p (.file (update .empty))

def applying (change : FileTree → Except Refusal FileTree) :
    StateM FileTree (Except Refusal Unit) := do
  match change (← get) with
  | .ok t => set t; return .ok ()
  | .error r => return .error r

def store (bound : Nat) : FileStore (StateM FileTree) where
  isFile path := return (← get).isFile path
  linkTarget? path := return (← get).linkTarget? path
  canonical? path := return (← get).canonical? path
  readText path := return (← get).readText path
  bound := bound
  isThere path := return (← get).isThere path
  writeText path text := applying fun t => t.change path fun _ => text.toUTF8
  touch path := applying fun t => t.change path id

end FileTree

end Overlay

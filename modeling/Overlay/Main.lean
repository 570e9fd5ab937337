import Overlay.CommandLine.Run

/-!
# The program

Runs a command on the files of the machine.
-/

namespace Overlay

def refusalOf : IO.Error → Refusal
  | .noFileOrDirectory _ _ _ => .missing
  | e => .other (toString e)

def attempt {α : Type} (action : IO α) : IO (Except Refusal α) := do
  try return .ok (← action)
  catch e => return .error (refusalOf e)

def realPath? (path : String) : IO (Option String) := do
  try return some (toString (← IO.FS.realPath path))
  catch _ => return none

def readTextFile (path : String) : IO (Except Refusal String) := do
  match ← attempt (IO.FS.readBinFile path) with
  | .error refusal => return .error refusal
  | .ok bytes =>
    match String.fromUTF8? bytes with
    | some text => return .ok text
    | none => return .error .notText

/-- Where a link leads in the end: a path whose directory has no links is one if it has another
path without links. -/
def finalTarget? (path : String) : IO (Option String) := do
  let directory ← realPath? (match Path.parent? path with
    | none | some "" => "."
    | some directory => directory)
  match directory, Path.fileName? path, ← realPath? path with
  | some directory, some name, some target =>
    return if Path.join directory name = target then none else some target
  | _, _, _ => return none

def machineFiles : FileStore IO where
  isFile path := return (← attempt (IO.FS.readBinFile path)).toBool
  linkTarget? := finalTarget?
  canonical? := realPath?
  readText := readTextFile
  bound := 100000
  isThere path := return (← realPath? path).isSome
  writeText path text := attempt (IO.FS.writeFile path text)
  touch path := attempt (discard (IO.FS.Handle.mk path .append))

def processVariables : IO (List (String × String)) := do
  match ← readTextFile "/proc/self/environ" with
  | .error _ => return []
  | .ok text =>
    return (Text.fields '\x00' text.toList).filterMap fun line =>
      (Text.cut (· = '=') line).map fun (name, value) => (String.ofList name, String.ofList value)

def runProgram (arguments : List String) : IO UInt32 := do
  match ← CommandLine.run machineFiles (← processVariables) arguments with
  | none => return 1
  | some outcome =>
    (← IO.getStdout).putStr outcome.output
    match outcome with
    | .failed failure => (← IO.getStderr).putStrLn (failure.report Error.display)
    | .stopped .usage => (← IO.getStderr).putStr CommandLine.usageText
    | _ => pure ()
    return outcome.status.toUInt32

end Overlay

def main (arguments : List String) : IO UInt32 :=
  Overlay.runProgram arguments

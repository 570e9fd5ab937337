import Overlay.CommandLine.Arguments
import Overlay.Diff
import Overlay.Files.Evaluation
import Overlay.Intersection
import Overlay.Settings

/-!
# Running a command

A command reads files and variables of the process and gives a text for the standard output, unless
it writes a file. The first failure ends it, and nothing is written then. A command that evaluates
files goes on for ever if their evaluation does.
-/

namespace Overlay.CommandLine

variable {m : Type → Type} [Monad m]

inductive Failure where
  | error (e : Error)
  | settings (path : String) (e : Error)
  | log (path : String) (refusal : Refusal)

def causedBy (summary cause : String) : String :=
  let lines := (Text.fields '\n' cause.toList).map String.ofList
  summary ++ "\n\nCaused by:\n    " ++ Text.joined "\n    " lines

def Failure.report (display : Error → String) : Failure → String
  | error e => "Error: " ++ display e
  | settings path e => causedBy ("Error: failed to load settings from " ++ path) (display e)
  | log path refusal => causedBy ("Error: failed to open log file " ++ path) refusal.words

inductive Outcome where
  | done (output : String)
  | failed (failure : Failure)
  | stopped (stop : Stop)

def Outcome.status : Outcome → UInt8
  | done _ => 0
  | failed _ => 1
  | stopped .usage => 2
  | stopped _ => 0

def versionText := "strata 0.2.1\n"

def usageText :=
  "Usage: strata [OPTIONS] <COMMAND>\n\n"
    ++ "Commands:\n"
    ++ "  eval <FILE>...       print every output of layered files\n"
    ++ "  diff <SRC> <DST>     print the patches from the outputs of one file to those of another\n"
    ++ "  intersect <FILE>...  print what several files have in common\n"
    ++ "  required <FILE>      print the values that are still required\n"

def Outcome.output : Outcome → String
  | done text => text
  | failed _ | stopped .usage => ""
  | stopped .help => usageText
  | stopped .version => versionText

abbrev Variables := List (String × String)

def openLog (files : FileStore m) (log : String) : m (Except Failure Unit) := do
  if ["0", "off", "1", "stdout", "2", "stderr"].contains log then return .ok ()
  match ← files.touch log with
  | .ok () => return .ok ()
  | .error refusal => return .error (.log log refusal)

def readSettings (files : FileStore m) (vars : Variables) (path : Option String) :
    m (Except Failure Settings) := do
  let lookup := fun name => vars.lookup name
  let settings ← match path with
    | some path => do
      pure ((← Settings.load files.toFileReader lookup path).mapError (Failure.settings path))
    | none => do pure ((← Settings.loadDefault files lookup).mapError Failure.error)
  return do
    let s ← settings
    s.validate.mapError Failure.error
    return s

def evaluation (s : Settings) (vars : Variables) (validates : Bool) : Evaluation :=
  ⟨s.recursionLimit, if s.inheritsEnvironment then Environment.ofVariables vars else [],
    validates⟩

def Command.firstFile? : Command → Option String
  | eval files _ _ | intersect files _ => files.head?
  | diff source _ _ => some source
  | required file _ => some file

def Command.inputs : Command → List String × Bool
  | eval files _ _ => (files, false)
  | diff source target raw => ([source, target], raw)
  | intersect files raw => (files, raw)
  | required file raw => ([file], raw)

def Command.validates : Command → Bool
  | eval _ _ validates => validates
  | _ => false

/-- The outputs of several files, one of each, as often as all have one. -/
def columns (files : List (List Value)) : List (List Value) :=
  let count := (files.map List.length).min?.getD 0
  (List.range count).map fun i => files.filterMap fun outputs => outputs[i]?

def Command.documents : Command → List (List Value) → List Value
  | eval _ _ _, inputs => inputs.flatten
  | diff _ _ _, [source, target] => (source.zip target).map fun (a, b) => Value.diffDocument a b
  | diff _ _ _, _ => []
  | intersect _ _, inputs => (columns inputs).map Value.intersectAll
  | required _ _, inputs => inputs.flatten.filterMap Value.skeleton

/-- Whether a command writes nothing at all for want of documents. -/
def Command.isSilent : Command → List Value → Bool
  | required _ _, documents => documents.isEmpty
  | _, _ => false

def write (files : FileStore m) (command : Command) (text : String) : m Outcome := do
  match command with
  | .eval _ (some path) _ =>
    match ← files.writeText path text with
    | .ok () => return .done ""
    | .error refusal => return .failed (.error (.refused path refusal))
  | _ => return .done text

def runCommand (files : FileStore m) (vars : Variables) (s : Settings)
    (format : Option String) (command : Command) : m (Option Outcome) := do
  match s.resolveFormat format command.firstFile? with
  | .error e => return some (.failed (.error e))
  | .ok format =>
    let e := evaluation s vars command.validates
    let (paths, raw) := command.inputs
    match ← e.readAllOutputs files.toFileReader s.extensions raw paths with
    | none => return none
    | some (.error err) => return some (.failed (.error err))
    | some (.ok inputs) =>
      let documents := command.documents inputs
      if command.isSilent documents then return some (.done "")
      match format.encodeStream documents with
      | .error err => return some (.failed (.error err))
      | .ok text => return some (← write files command text)

def run (files : FileStore m) (vars : Variables) (arguments : List String) :
    m (Option Outcome) := do
  match Invocation.ofArguments arguments with
  | .error stop => return some (.stopped stop)
  | .ok invocation =>
    match ← openLog files invocation.log with
    | .error failure => return some (.failed failure)
    | .ok () =>
      match ← readSettings files vars invocation.settings with
      | .error failure => return some (.failed failure)
      | .ok s => runCommand files vars s invocation.format invocation.command

end Overlay.CommandLine

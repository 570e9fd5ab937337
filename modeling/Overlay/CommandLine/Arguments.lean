import Overlay.Text.Line

/-!
# Arguments of the command line

Arguments are options, which start with hyphens, and operands. An option may take a value, from the
same argument or the next one; short options may stand together. Before the name of a subcommand and
after it some options are the same. Two hyphens end the options.
-/

namespace Overlay.CommandLine

inductive Takes where
  | nothing
  | text
  | path
deriving DecidableEq

structure Flag where
  name : String
  letter : Option Char := none
  takes : Takes := .nothing
deriving DecidableEq

inductive Stop where
  | usage
  | help
  | version
deriving DecidableEq

structure Arguments where
  options : List (String × String) := []
  operands : List String := []

namespace Arguments

def has (a : Arguments) (name : String) : Bool :=
  (a.options.lookup name).isSome

def value? (a : Arguments) (name : String) : Option String :=
  a.options.lookup name

/-- Notes an option. Each may stand once, and some stop all else. -/
def note (a : Arguments) (f : Flag) (value : String) : Except Stop Arguments :=
  if f.takes = .path ∧ value = "" then .error .usage
  else if f.name = "help" then .error .help
  else if f.name = "version" then .error .version
  else if a.has f.name then .error .usage
  else .ok { a with options := a.options ++ [(f.name, value)] }

def noteOperand (a : Arguments) (most : Option Nat) (operand : String) : Except Stop Arguments :=
  if operand = "" || most.any (· ≤ a.operands.length) then .error .usage
  else .ok { a with operands := a.operands ++ [operand] }

def letters (flags : List Flag) (a : Arguments) :
    List Char → Except Stop (Arguments × Option Flag)
  | [] => .ok (a, none)
  | c :: rest =>
    match flags.find? fun f => f.letter = some c with
    | none => .error .usage
    | some f =>
      if f.takes = .nothing then do letters flags (← a.note f "") rest
      else
        match rest with
        | [] => .ok (a, some f)
        | '=' :: value => do return (← a.note f (String.ofList value), none)
        | value => do return (← a.note f (String.ofList value), none)

def long (flags : List Flag) (a : Arguments) (text : List Char) :
    Except Stop (Arguments × Option Flag) :=
  let (name, value) := match Text.cut (· = '=') text with
    | some (name, value) => (name, some (String.ofList value))
    | none => (text, none)
  match flags.find? fun f => f.name = String.ofList name, value with
  | none, _ => .error .usage
  | some f, some value =>
    if f.takes = .nothing then .error .usage else do return (← a.note f value, none)
  | some f, none => if f.takes = .nothing then do return (← a.note f "", none) else .ok (a, some f)

def isOption (argument : String) : Bool :=
  argument.startsWith "-" && argument ≠ "-"

def option (flags : List Flag) (a : Arguments) (argument : String) :
    Except Stop (Arguments × Option Flag) :=
  match argument.toList with
  | '-' :: '-' :: name => long flags a name
  | '-' :: chars => letters flags a chars
  | _ => .ok (a, none)

/-- Reads options up to the first operand, which is given with all that follows it. `wanting` is the
option that takes the next argument. -/
def leading (flags : List Flag) (a : Arguments) (wanting : Option Flag) :
    List String → Except Stop (Arguments × List String)
  | [] => if wanting.isSome then .error .usage else .ok (a, [])
  | argument :: rest =>
    match wanting with
    | some f =>
      if isOption argument then .error .usage
      else do leading flags (← a.note f argument) none rest
    | none =>
      if argument = "--" then .error .usage
      else if isOption argument then do
        let (a, wanting) ← option flags a argument
        leading flags a wanting rest
      else .ok (a, argument :: rest)

def all (flags : List Flag) (most : Option Nat) (a : Arguments) (wanting : Option Flag) :
    List String → Except Stop Arguments
  | [] => if wanting.isSome then .error .usage else .ok a
  | argument :: rest =>
    match wanting with
    | some f =>
      if isOption argument then .error .usage
      else do all flags most (← a.note f argument) none rest
    | none =>
      if argument = "--" then rest.foldlM (fun a operand => a.noteOperand most operand) a
      else if isOption argument then do
        let (a, wanting) ← option flags a argument
        all flags most a wanting rest
      else do all flags most (← a.noteOperand most argument) none rest

end Arguments

def sharedFlags : List Flag :=
  [⟨"settings", some 's', .path⟩, ⟨"verbose", some 'v', .nothing⟩, ⟨"log", some 'l', .text⟩,
    ⟨"help", some 'h', .nothing⟩]

def leadingFlags : List Flag :=
  ⟨"version", some 'V', .nothing⟩ :: sharedFlags

def evalFlags : List Flag :=
  [⟨"format", some 'f', .text⟩, ⟨"output", some 'o', .path⟩, ⟨"no-validate", none, .nothing⟩]
    ++ sharedFlags

def compareFlags : List Flag :=
  [⟨"format", some 'f', .text⟩, ⟨"raw", none, .nothing⟩] ++ sharedFlags

inductive Command where
  | eval (files : List String) (output : Option String) (validates : Bool)
  | diff (source target : String) (raw : Bool)
  | intersect (files : List String) (raw : Bool)
  | required (file : String) (raw : Bool)
deriving DecidableEq

structure Invocation where
  settings : Option String
  log : String
  format : Option String
  command : Command
deriving DecidableEq

namespace Invocation

def command? (name : String) (a : Arguments) : Option Command :=
  match name, a.operands with
  | "eval", file :: files =>
    some (.eval (file :: files) (a.value? "output") (!a.has "no-validate"))
  | "diff", [source, target] => some (.diff source target (a.has "raw"))
  | "intersect", file :: files => some (.intersect (file :: files) (a.has "raw"))
  | "required", [file] => some (.required file (a.has "raw"))
  | _, _ => none

def grammar? : String → Option (List Flag × Option Nat)
  | "eval" => some (evalFlags, none)
  | "diff" => some (compareFlags, some 2)
  | "intersect" => some (compareFlags, none)
  | "required" => some (compareFlags, some 1)
  | _ => none

def explain : List String → Stop
  | [] => .help
  | ["help"] => .help
  | [name] => if (grammar? name).isSome then .help else .usage
  | _ => .usage

/-- Reads all arguments. Of an option given on both sides of the subcommand the later counts. -/
def ofArguments (arguments : List String) : Except Stop Invocation := do
  match ← Arguments.leading leadingFlags {} none arguments with
  | (_, []) => .error .usage
  | (before, name :: rest) =>
    if name = "help" then .error (explain rest)
    else
      match grammar? name with
      | none => .error .usage
      | some (flags, most) =>
        let a ← Arguments.all flags most {} none rest
        match command? name a with
        | none => .error .usage
        | some command =>
          return ⟨(a.value? "settings").or (before.value? "settings"),
            ((a.value? "log").or (before.value? "log")).getD "2", a.value? "format", command⟩

end Invocation

end Overlay.CommandLine

import Overlay.Course
import Overlay.Expansion
import Overlay.Pipeline
import Overlay.Repetition
import Overlay.Required
import Overlay.Template

/-!
# Instantiation

A document is instantiated in an environment: variables and templates give place to their values,
repeated maps and list elements to their copies, and values run through pipelines or are read from
embedded text. What a directive leaves empty disappears from the map or list around it.

In a map repetition comes first, then the pipeline, then embedded text or a plain value, and last the
ordinary entries, so each of these sees the map without the directives before it.
-/

namespace Overlay.Instantiation

/-- The document that is instantiated, and the limit for the expansion of embedded references. -/
structure Frame where
  site : Site
  limit : Nat

abbrev Continuation := Value → Environment → String → Course (Option Value)

def isSymbol (s : String) : Bool :=
  s = Directive.repeatOver || s.startsWith Directive.repeatSymbol || s.startsWith Directive.envSymbol

def pieceText (f : Frame) (env : Environment) (path : String) : Template.Piece → Result String
  | .text s => .ok (String.ofList s)
  | .expression s => do
    let reference := String.ofList (Text.trim s)
    let v ← (Reference.resolveIn f.site env reference).mapError (Error.defaultPath path)
    return v.plain

def stringValue (f : Frame) (s : String) (env : Environment) (path : String) : Result Value :=
  if s.startsWith "$$" then .ok (.string s)
  else if isSymbol s then
    match Entries.lookup s env with
    | some v => .ok v
    | none => .error (.atKey (.unboundVariable s) path)
  else
    match Template.body? s with
    | some body => do
      let texts ← (Template.pieces body).mapM (pieceText f env path)
      return .string (String.join texts)
    | none => .ok (.string s)

def environments (spec : Value) (env : Environment) (path : String) : Result (List Environment) := do
  let bindings ← (Repetition.bindings spec).mapError (Error.withPath path)
  return bindings.map fun b => Environment.bindAll b env

/-- Runs a step for each of some things, given the position its values come to stand at. -/
def gather {α : Type} (step : Nat → α → Course (List Value)) (position : Nat)
    (found : List (List Value)) : List α → Course (List Value)
  | [] => return found.reverse.flatten
  | x :: rest => do
    let more ← step position x
    gather step (position + more.length) (more :: found) rest

def copies (content : Environment → String → Course (Option Value)) (path : String)
    (position : Nat) (envs : List Environment) : Course (List Value) :=
  gather (fun position env => Option.toList <$> content env (KeyPath.item path position))
    position [] envs

def pipelineName (path : String) : Value → Result String
  | .string s => .ok s
  | v => .error (.atKey (.wrongKind Directive.encode "a pipeline string" v.kind) path)

def pipelineNames (path : String) (items : List Value) : Result (List String) :=
  (items.filterMap fun v => v.soleArgument? Directive.encode).mapM (pipelineName path)

def encodeAt (path : String) (v : Value) (pipeline : String) : Result Value :=
  match v.firstRequired path with
  | some missing => .error (.atKey .requiredField missing)
  | none => (Pipeline.run pipeline v).mapError (Error.withPath path)

def encodeThrough (path : String) (pipelines : List String) (v : Value) : Result Value :=
  pipelines.foldlM (encodeAt path) v

def encoded (entries : Entries Value) (content : Environment → String → Course (Option Value))
    (env : Environment) (path : String) : Course (Option Value) :=
  match Entries.lookup Directive.encode entries with
  | none => content env path
  | some pipeline => do
    let name ← pipelineName path pipeline
    match ← content env path with
    | none => return none
    | some v => return some (← encodeAt path v name)

def embedded (f : Frame) (format : String) (text : Option Value) (path : String) : Result Value := do
  let source ← match text with
    | some (.string s) => pure s
    | some v => .error (.atKey (.wrongKind Directive.decode "a string value" v.kind) path)
    | none => .error (.atKey (.wrongKind Directive.decode "a string value" "nothing") path)
  let decoded ← (do (← Format.ofName format).decode source).mapError (Error.withPath path)
  let fresh ← decoded.normalize path
  Expansion.expand f.site f.limit fresh path

def contentOf (f : Frame) (again : Continuation) (entries : Entries Value)
    (held : Environment → String → Course (Option Value))
    (plain : Environment → String → Course (Entries Value)) (env : Environment) (path : String) :
    Course (Option Value) :=
  let dropped := [Directive.repeatOver, Directive.encode]
  match Entries.lookup Directive.decode entries with
  | some (.string format) =>
    if !Entries.has Directive.value entries then throw (.atKey .missingText path)
    else
      match Entries.without (Directive.decode :: Directive.value :: dropped) entries with
      | [] => do again (← embedded f format (← held env path) path) env path
      | extra => throw (.atKey (.extraKeys Directive.decode (Entries.keys extra)) path)
  | some v => throw (.atKey (.wrongKind Directive.decode "a format name" v.kind) path)
  | none =>
    if Entries.has Directive.value entries then
      match Entries.without (Directive.value :: dropped) entries with
      | [] => do return (← held env path).filter fun v => !v.isNull
      | extra => throw (.atKey (.extraKeys Directive.value (Entries.keys extra)) path)
    else do return some (.map (← plain env path))

/-- Whether a key is a directive that nothing here knows. The mark of an output is left alone. -/
def isUnknownDirective (key : String) : Bool :=
  key != Directive.output &&
    match key.toList with
    | '$' :: c :: _ => 'a' ≤ c && c ≤ 'z'
    | _ => false

/-- A list with its copies, after its pipelines, the last of which comes first. It is given the
specification of copies that marks it, and its elements from a position on, with or without the
mark. -/
def listOf (items : List Value) (spec : Course (Option Value))
    (plain : Bool → Nat → Environment → Course (List Value)) (env : Environment) (path : String) :
    Course Value := do
  let names ← pipelineNames path items
  let out ← match ← spec with
    | some spec => gather (plain true) 0 [] (← environments spec env path)
    | none => plain false 0 env
  encodeThrough path names.reverse (.list out)

mutual
/-- Instantiates a value; none if a directive leaves nothing of it. -/
def instantiate (f : Frame) (again : Continuation) :
    Value → Environment → String → Course (Option Value)
  | .string s, env, path => do return some (← stringValue f s env path)
  | .map entries, env, path =>
    let content := encoded entries <| contentOf f again entries
      (fun env path => heldValue f again entries env path)
      (fun env path => plainEntries f again entries env path)
    if Entries.has Directive.repeatOver entries then do
      let spec ← heldSpec f again entries env path
      return some (.list (← copies content path 0 (← environments spec env path)))
    else content env path
  | .list items, env, path =>
    some <$> listOf items (markedSpec f again items env path)
      (fun marked position env => plainItems f again marked position items env path) env path
  | v, _, _ => pure (some v)
termination_by structural v => v

def plainEntries (f : Frame) (again : Continuation) :
    List (String × Value) → Environment → String → Course (Entries Value)
  | [], _, _ => pure []
  | (k, v) :: rest, env, path =>
    if k = Directive.repeatOver ∨ k = Directive.encode then plainEntries f again rest env path
    else if isUnknownDirective k then throw (.atKey (.unknownDirective k) (KeyPath.child path k))
    else do
      let first ← instantiate f again v env (KeyPath.child path k)
      let others ← plainEntries f again rest env path
      return (first.map fun x => (k, x)).toList ++ others
termination_by structural entries => entries

def heldValue (f : Frame) (again : Continuation) :
    List (String × Value) → Environment → String → Course (Option Value)
  | [], _, _ => pure none
  | (k, v) :: rest, env, path =>
    if k = Directive.value then instantiate f again v env path
    else heldValue f again rest env path
termination_by structural entries => entries

/-- Instantiates the elements of a list that are no markers; the first comes to stand at a
position. The first specification of copies is left out if told so. -/
def plainItems (f : Frame) (again : Continuation) (marked : Bool) (position : Nat) :
    List Value → Environment → String → Course (List Value)
  | [], _, _ => pure []
  | .map entries :: rest, env, path =>
    let isMarker := fun key => ((Value.map entries).soleArgument? key).isSome
    if isMarker Directive.encode then plainItems f again marked position rest env path
    else if marked && isMarker Directive.repeatOver then
      plainItems f again false position rest env path
    else do
      let content := encoded entries <| contentOf f again entries
        (fun env path => heldValue f again entries env path)
        (fun env path => plainEntries f again entries env path)
      let place := KeyPath.item path position
      let found ←
        if Entries.has Directive.repeatOver entries then do
          let spec ← heldSpec f again entries env place
          copies content path position (← environments spec env place)
        else Option.toList <$> content env place
      return found ++ (← plainItems f again marked (position + found.length) rest env path)
  | v :: rest, env, path => do
    let found ← Option.toList <$> instantiate f again v env (KeyPath.item path position)
    return found ++ (← plainItems f again marked (position + found.length) rest env path)
termination_by structural items => items

def heldSpec (f : Frame) (again : Continuation) :
    List (String × Value) → Environment → String → Course Value
  | [], _, _ => pure .null
  | (k, v) :: rest, env, path =>
    if k = Directive.repeatOver then specValue f again v env path
    else heldSpec f again rest env path
termination_by structural entries => entries

/-- Instantiates the first specification of copies that stands in a list as a marker. -/
def markedSpec (f : Frame) (again : Continuation) :
    List Value → Environment → String → Course (Option Value)
  | [], _, _ => pure none
  | .map [(k, v)] :: rest, env, path =>
    if k = Directive.repeatOver then some <$> specValue f again v env path
    else markedSpec f again rest env path
  | _ :: rest, env, path => markedSpec f again rest env path
termination_by structural items => items

/-- Instantiates a specification of copies. The keys of maps in it are kept as they are. -/
def specValue (f : Frame) (again : Continuation) :
    Value → Environment → String → Course Value
  | .map entries, env, path => Value.map <$> specEntries f again entries env path
  | .list items, env, path =>
    listOf items (markedSpec f again items env path)
      (fun marked position env => plainItems f again marked position items env path) env path
  | .string s, env, path => do stringValue f s env path
  | v, _, _ => pure v
termination_by structural v => v

def specEntries (f : Frame) (again : Continuation) :
    List (String × Value) → Environment → String → Course (Entries Value)
  | [], _, _ => pure []
  | (k, v) :: rest, env, path => do
    let first ← specValue f again v env (KeyPath.child path k)
    return (k, first) :: (← specEntries f again rest env path)
termination_by structural entries => entries
end

end Overlay.Instantiation

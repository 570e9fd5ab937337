import Overlay.Instantiation.Run
import Overlay.Output

/-!
# Evaluation

Layers become outputs in these steps: they are assembled, references are expanded, a document whose
root is repeated is fanned out into its copies, each copy is instantiated in its environment and
split into its outputs, and these are checked for required values and unescaped. Errors name the
document, or copy of it, in which they arise.
-/

namespace Overlay

structure Evaluation where
  /-- How many references may be followed on the way to one value. -/
  limit : Nat := 1000
  environment : Environment := []
  validates : Bool := true

namespace Evaluation

/-- Expands the references of all documents of the outcome. They lead to the documents as they were
before any was expanded. -/
def expandAll (e : Evaluation) (a : Assembly) : Result Assembly := do
  let corpus ← a.result.foldlM (fun c id => do
    let expanded ← (Expansion.expand ⟨a, id⟩ e.limit (c.data id) "").mapError
      (Error.defaultDocument (a.corpus.label id))
    return c.setData id expanded) a.corpus
  return { a with corpus }

def takeSpecs (c : Corpus) : List Nat → Corpus × List (Option Value)
  | [] => (c, [])
  | id :: rest =>
    let data := c.data id
    let stripped := match data with
      | .map entries => c.setData id (.map (Entries.erase Directive.repeatOver entries))
      | _ => c
    let (final, specs) := takeSpecs stripped rest
    (final, data.entry? Directive.repeatOver :: specs)

/-- A document as often as it is copied, each time with its label and environment. -/
def fanOut (e : Evaluation) (f : Instantiation.Frame) (again : Instantiation.Continuation)
    (label : String) : Option Value → Course (List (String × Environment))
  | none => return [(label, e.environment)]
  | some spec => do
    let envs ← (Instantiation.runSpec f again spec e.environment "").mapError
      (Error.defaultDocument label)
    return envs.zipIdx.map fun (env, i) => (label ++ "[repeat " ++ toString i ++ "]", env)

def finish (e : Evaluation) (v : Value) : Result Value := do
  if e.validates then v.validate
  return Output.finalize v

def outputsOf (e : Evaluation) : Option Value → Result (List Value)
  | some v => do (← Output.split v).mapM e.finish
  | none => .ok []

def outputsAt (e : Evaluation) (f : Instantiation.Frame) (again : Instantiation.Continuation)
    (spec : Option Value) : Course (List Value) := do
  let corpus := f.site.assembly.corpus
  let copies ← e.fanOut f again (corpus.label f.site.document) spec
  copies.flatMapM fun (label, env) => Course.mapError (Error.defaultDocument label) do
    e.outputsOf (← Instantiation.instantiate f again (corpus.data f.site.document) env "")

def outputs (e : Evaluation) (again : Instantiation.Frame → Instantiation.Continuation)
    (a : Assembly) : Course (List Value) :=
  let (corpus, specs) := takeSpecs a.corpus a.result
  (a.result.zip specs).flatMapM fun (id, spec) =>
    let f : Instantiation.Frame := ⟨⟨{ a with corpus }, id⟩, e.limit⟩
    e.outputsAt f (again f) spec

/-- Evaluates the documents of a corpus, which are assembled in an order. What is embedded in their
texts is instantiated by a continuation. -/
def evaluateWith (e : Evaluation) (again : Instantiation.Frame → Instantiation.Continuation)
    (c : Corpus) (order : List Nat) : Course (List Value) := do
  let a ← Assembly.ofCorpus c order
  e.outputs again (← e.expandAll a)

/-- Evaluates the documents of a corpus, which are assembled in an order. -/
def evaluate (e : Evaluation) (c : Corpus) (order : List Nat) : Course (List Value) :=
  e.evaluateWith Instantiation.Frame.run c order

def addLayer (c : Corpus) (label : Nat → String) (parents : List Nat) (values : List Value) :
    Corpus :=
  values.zipIdx.foldl (fun c (v, i) => c.add (label i) v parents) c

/-- The corpus of layers given as texts, each inheriting from the one before it that is not empty.
The layers are counted from a number, and `parents` are the documents before them. -/
def layerCorpus (format : Format) (c : Corpus) (number : Nat) (parents : List Nat) :
    List String → Result Corpus
  | [] => .ok c
  | text :: rest => do
    let values ← format.decodeStream text
    let label (i : Nat) := "layer" ++ toString number ++ "#" ++ toString i
    let extended := addLayer c label parents values
    let added := List.range' c.size values.length
    layerCorpus format extended (number + 1) (if values.isEmpty then parents else added) rest

def evaluateLayers (e : Evaluation) (format : Format) (texts : List String) :
    Course (List Value) := do
  let c ← layerCorpus format {} 0 [] texts
  e.evaluate c (List.range c.size)

end Evaluation

end Overlay

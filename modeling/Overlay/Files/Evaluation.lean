import Overlay.Evaluation
import Overlay.Files.Loading

/-!
# Evaluation of files

The outputs of a file are those of its documents and their ancestors, or the documents as they are
written.
-/

namespace Overlay.Evaluation

variable {m : Type → Type} [Monad m]

def evaluateFile (e : Evaluation) (r : FileReader m) (extensions : List String) (path : String) :
    m (Course (List Value)) := do
  match ← Loader.load r path { extensions } with
  | (.error err, _) => return throw err
  | (.ok _, l) => return e.evaluate l.corpus l.order

def readOutputs (e : Evaluation) (r : FileReader m) (extensions : List String) (raw : Bool)
    (path : String) : m (Course (List Value)) := do
  if raw then return liftM (← Loader.readDocuments r path) else e.evaluateFile r extensions path

def readAllOutputs (e : Evaluation) (r : FileReader m) (extensions : List String) (raw : Bool) :
    List String → m (Course (List (List Value)))
  | [] => return pure []
  | path :: rest => do
    match ← e.readOutputs r extensions raw path with
    | none => return none
    | some (.error err) => return throw err
    | some (.ok outputs) => return (outputs :: ·) <$> (← readAllOutputs e r extensions raw rest)

end Overlay.Evaluation

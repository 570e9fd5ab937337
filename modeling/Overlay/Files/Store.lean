import Overlay.Error

/-!
# File stores

What the program asks of files, for any monad in which it is answered: a tree in memory answers as
a state, the machine's own files as an action.
-/

namespace Overlay

inductive Refusal where
  | missing
  | notDirectory
  | isDirectory
  | tooManyLinks
  | notText
  | other (words : String)
deriving DecidableEq

def Refusal.words : Refusal → String
  | missing => "No such file or directory (os error 2)"
  | notDirectory => "Not a directory (os error 20)"
  | isDirectory => "Is a directory (os error 21)"
  | tooManyLinks => "Too many levels of symbolic links (os error 40)"
  | notText => "stream did not contain valid UTF-8"
  | other words => words

def Error.refused (path : String) : Refusal → Error
  | .missing => .about (.missingFile path) path
  | _ => .about .system path

/-- What can be asked of files without changing them. Links are followed unless told otherwise. -/
structure FileReader (m : Type → Type) where
  isFile : String → m Bool
  linkTarget? : String → m (Option String)
  canonical? : String → m (Option String)
  readText : String → m (Except Refusal String)
  /-- No more files than this can be told apart. -/
  bound : Nat

structure FileStore (m : Type → Type) extends FileReader m where
  isThere : String → m Bool
  writeText : String → String → m (Except Refusal Unit)
  touch : String → m (Except Refusal Unit)

end Overlay

import Overlay.Parentage
import Overlay.Value.Identity
import Overlay.Value.Plain

/-!
# Errors

A `Cause` says what went wrong and carries what its message needs. An `Error` adds where: the file,
the document and the key path, as far as they are known. The words are in `Cause.code` and
`Cause.message` alone.
-/

namespace Overlay

inductive RepeatFault where
  | noDimension
  | dimensionKey (key : String)
  | negativeCount (n : Int)
  | notRepeatable (kind : String)
  | rangeBound (key kind : String)
  | rangeKey (key : String)
  | zeroStep
  | unreachable (first last step : Int)
  | rangeArity
  | emptyRange (count : Int)
  | overflow
  | tooMany (copies : Int)
deriving DecidableEq

inductive Cause where
  | missingFile (path : String)
  | invalidFilename (path reason : String)
  | circularParents (chain : List String)
  | recursionLimit (limit : Nat)
  | parentsDiffer (first second : Parentage)
  | parentsMixed
  | patternUnmatched (pattern : Value)
  | referenceUnmatched (pattern : Value)
  | referenceAmbiguous (pattern : Value) (count : Nat)
  | parentAmbiguous (path : String) (count : Nat)
  | alreadySet (value : Value)
  | absentKeyDeleted
  | absentElementDeleted (pattern : Value)
  | extraKeys (directive : String) (keys : List String)
  | unknownDirective (key : String)
  | wrongKind (subject expected found : String)
  | emptyStage (pipeline : String)
  | missingDelimiter (stage : String)
  | missingText
  | noExtensions
  | badRepeat (fault : RepeatFault)
  | unboundVariable (symbol : String)
  | danglingReference (reference : String)
  | requiredField
  | unknownFormat (name : String)
  | unwritable
  | unreadable
  | system
deriving DecidableEq

namespace RepeatFault

def message : RepeatFault → String
  | noDimension => "named $repeat needs at least one dimension"
  | dimensionKey key => "unexpected key " ++ key ++ " in named $repeat"
  | negativeCount n => "repeat count must not be negative, got " ++ toString n
  | notRepeatable kind => "$repeat expects an integer, list or range, found " ++ kind
  | rangeBound key kind => key ++ " must be an integer, found " ++ kind
  | rangeKey key => "unexpected key " ++ key ++ " in $repeat range"
  | zeroStep => "$step must not be zero"
  | unreachable first last step =>
    "range " ++ toString first ++ ".." ++ toString last ++ " is not reachable with step "
      ++ toString step
  | rangeArity => "range needs exactly two of $first, $last and $count"
  | emptyRange count => "$count must be positive, got " ++ toString count
  | overflow => "$repeat range overflows a 64-bit integer"
  | tooMany copies => "$repeat would produce " ++ toString copies ++ " copies, the limit is 100000"

end RepeatFault

namespace Cause

def code : Cause → String
  | missingFile _ => "MISSING_FILE"
  | invalidFilename _ _ => "INVALID_FILENAME"
  | circularParents _ | recursionLimit _ => "CIRCULAR_REF"
  | parentsDiffer _ _ | parentsMixed => "CONFLICTING_PARENT"
  | patternUnmatched _ => "NO_MATCH_FOUND"
  | referenceUnmatched _ => "MISSING_MATCH"
  | referenceAmbiguous _ _ | parentAmbiguous _ _ => "MULTI_MATCH"
  | alreadySet _ | absentKeyDeleted | absentElementDeleted _ => "USELESS_OVERRIDE"
  | extraKeys _ _ => "EXTRA_KEYS"
  | unknownDirective _ => "INVALID_DIRECTIVE"
  | wrongKind _ _ _ => "INVALID_TYPE"
  | emptyStage _ | missingDelimiter _ | missingText | noExtensions => "INVALID_ARGUMENTS"
  | badRepeat _ => "INVALID_REPEAT"
  | unboundVariable _ => "VARIABLE_NOT_FOUND"
  | danglingReference _ => "REF_NOT_FOUND"
  | requiredField => "REQUIRED_FIELD"
  | unknownFormat _ => "UNKNOWN_FORMAT"
  | unwritable => "MARSHAL"
  | unreadable => "UNMARSHAL"
  | system => "IO"

def ambiguity (subject : String) (count : Nat) : String :=
  "Pattern " ++ subject ++ " matched " ++ toString count ++ " documents, expected exactly one"

def message : Cause → String
  | missingFile path => "File not found: " ++ path
  | invalidFilename path reason => "Invalid filename \x27" ++ path ++ "\x27: " ++ reason
  | circularParents chain => "Circular parent reference: " ++ Text.joined " -> " chain
  | recursionLimit limit =>
    "Reference expansion exceeded the recursion limit of " ++ toString limit
  | parentsDiffer first second =>
    "documents declare different parents: " ++ first.display ++ " and " ++ second.display
  | parentsMixed => "parent list mixes paths with \x27no parent\x27"
  | patternUnmatched pattern => "No match found for pattern " ++ pattern.display
  | referenceUnmatched pattern => "No document matches reference pattern " ++ pattern.display
  | referenceAmbiguous pattern count => ambiguity pattern.display count
  | parentAmbiguous path count => ambiguity path count
  | alreadySet value => "Useless override: value is already " ++ value.display
  | absentKeyDeleted => "Useless override: deleted key does not exist"
  | absentElementDeleted pattern =>
    "Useless override: no list element matches " ++ pattern.display
  | extraKeys directive keys =>
    "Directive " ++ directive ++ " does not allow sibling keys (found: "
      ++ Text.joined ", " keys ++ ")"
  | unknownDirective key => "Unknown directive " ++ key
  | wrongKind subject expected found => subject ++ " expects " ++ expected ++ ", found " ++ found
  | emptyStage pipeline => "empty stage in $encode pipeline \x27" ++ pipeline ++ "\x27"
  | missingDelimiter stage => "encode stage \x27" ++ stage ++ "\x27 needs a delimiter"
  | missingText => "$decode needs a $value string"
  | noExtensions => "settings.extensions must name at least one extension"
  | badRepeat fault => fault.message
  | unboundVariable symbol => "Variable not found: " ++ symbol
  | danglingReference reference => "Reference not found: " ++ reference
  | requiredField => "Required field was never provided"
  | unknownFormat name => "Unknown format: " ++ name
  | unwritable => "The value cannot be written in this format"
  | unreadable => "The text is not well formed"
  | system => "The file system refused the operation"

end Cause

structure Error where
  cause : Cause
  file : Option String := none
  document : Option String := none
  path : Option String := none
deriving DecidableEq

abbrev Result (α : Type) := Except Error α

namespace Error

def of (cause : Cause) : Error :=
  { cause }

def atKey (cause : Cause) (path : String) : Error :=
  { cause, path := some path }

def about (cause : Cause) (file : String) : Error :=
  { cause, file := some file }

def withPath (path : String) (e : Error) : Error :=
  { e with path := some path }

def defaultPath (path : String) (e : Error) : Error :=
  { e with path := e.path.or (some path) }

def defaultDocument (label : String) (e : Error) : Error :=
  { e with document := e.document.or (some label) }

def defaultFile (file : String) (e : Error) : Error :=
  { e with file := e.file.or (some file) }

def place (e : Error) : List String :=
  (e.file.map ("file " ++ ·)).toList
    ++ (e.document.map ("document " ++ ·)).toList
    ++ ((e.path.filter (· ≠ "")).map ("key " ++ ·)).toList

def display (e : Error) : String :=
  let head := e.cause.code ++ ": " ++ e.cause.message
  match e.place with
  | [] => head
  | parts => head ++ " (at " ++ Text.joined ", " parts ++ ")"

end Error

end Overlay

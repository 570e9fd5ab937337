import Overlay.Error
import Overlay.KeyPath

/-!
# Outputs of a document

A map or list may say that it is an output of its own, or that it is none. Outputs of their own also
stay where they are, and come after what is left of the document, in the order in which they start.
What is no output is dropped, but the outputs inside it are not. Last, a doubled dollar sign in a
string or key becomes a single one.
-/

namespace Overlay.Output

/-- What becomes of a value: what is kept of it, the outputs of their own inside it, itself included,
and whether anything in it is marked. -/
structure Sifted (α : Type) where
  kept : α
  outputs : List Value
  isMarked : Bool

def mark? (path : String) : Option Value → Result (Option Bool)
  | none => .ok none
  | some (.bool b) => .ok (some b)
  | some v => .error (.atKey (.wrongKind Directive.output "a boolean" v.kind) path)

def applyMark (s : Sifted Value) : Option Bool → Sifted (Option Value)
  | none => ⟨some s.kept, s.outputs, s.isMarked⟩
  | some true => ⟨some s.kept, s.kept :: s.outputs, true⟩
  | some false => ⟨none, s.outputs, true⟩

def markerIn (items : List Value) : Option Value :=
  items.findSome? fun v => v.soleArgument? Directive.output

mutual
def sift : Value → String → Result (Sifted (Option Value))
  | .map entries, path => do
    let mark ← mark? path (Entries.lookup Directive.output entries)
    let s ← siftEntries entries path
    return applyMark ⟨.map s.kept, s.outputs, s.isMarked⟩ mark
  | .list items, path => do
    let mark ← mark? path (markerIn items)
    let s ← siftItems true 0 items path
    return applyMark ⟨.list s.kept, s.outputs, s.isMarked⟩ mark
  | v, _ => .ok ⟨some v, [], false⟩

def siftEntries : List (String × Value) → String → Result (Sifted (Entries Value))
  | [], _ => .ok ⟨[], [], false⟩
  | (k, v) :: rest, path =>
    if k = Directive.output then siftEntries rest path
    else do
      let s ← sift v (KeyPath.child path k)
      let t ← siftEntries rest path
      return ⟨(s.kept.map fun x => (k, x)).toList ++ t.kept, s.outputs ++ t.outputs,
        s.isMarked || t.isMarked⟩

/-- Sifts the elements of a list, the first of which comes to stand at a position. The first marker
is left out if told so. -/
def siftItems (marked : Bool) (position : Nat) :
    List Value → String → Result (Sifted (List Value))
  | [], _ => .ok ⟨[], [], false⟩
  | v :: rest, path =>
    if marked && (v.soleArgument? Directive.output).isSome then
      siftItems false position rest path
    else do
      let s ← sift v (KeyPath.item path position)
      let t ← siftItems marked (position + s.kept.toList.length) rest path
      return ⟨s.kept.toList ++ t.kept, s.outputs ++ t.outputs, s.isMarked || t.isMarked⟩
end

def isOwn : Value → Bool
  | .map entries => (Entries.lookup Directive.output entries).any fun v => v == .bool true
  | .list items => (markerIn items).any fun v => v == .bool true
  | _ => false

def split (v : Value) : Result (List Value) := do
  let s ← sift v ""
  if s.isMarked then
    let rest := s.kept.filter fun x => !isOwn v && !x.isEmptyContainer
    return rest.toList ++ s.outputs
  else return s.kept.toList

def unescape : List Char → List Char
  | '$' :: '$' :: s => '$' :: unescape s
  | c :: s => c :: unescape s
  | [] => []

def unescapeText (s : String) : String :=
  String.ofList (unescape s.toList)

mutual
/-- Unescapes all strings and keys of a value. Of keys that become the same the last stays. -/
def finalize : Value → Value
  | .string s => .string (unescapeText s)
  | .map entries => .map (Entries.ofList (finalizeEntries entries))
  | .list items => .list (finalizeItems items)
  | v => v

def finalizeItems : List Value → List Value
  | [] => []
  | v :: rest => finalize v :: finalizeItems rest

def finalizeEntries : List (String × Value) → List (String × Value)
  | [] => []
  | (k, v) :: rest => (unescapeText k, finalize v) :: finalizeEntries rest
end

end Overlay.Output

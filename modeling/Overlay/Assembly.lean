import Overlay.Corpus
import Overlay.Merge

/-!
# Assembling layers

An assembly is a corpus together with the documents that take part in the outcome. A document is
taken in as a patch: it is merged into the documents that it selects, by patterns or as what it
inherits from, and joins the outcome itself if it selects none.
-/

namespace Overlay

/-- Documents, and which of them take part in the outcome, in order. -/
structure Assembly where
  corpus : Corpus := {}
  result : List Nat := []

inductive Selector where
  | patterns (patterns : List Value)
  | none
  | lineage

namespace Assembly

def selection : Value → Result (Value × Selector)
  | .map entries =>
    let data : Value := .map <|
      Entries.without [Directive.parent, Directive.matchOne, Directive.matchAny] entries
    match Entries.lookup Directive.matchAny entries, Entries.lookup Directive.matchOne entries with
    | some (.list patterns), none => .ok (data, .patterns patterns)
    | some v, none => .error (.of (.wrongKind Directive.matchAny "a list of patterns" v.kind))
    | some _, some _ => .error (.of (.extraKeys Directive.matchAny [Directive.matchOne]))
    | none, some .null => .ok (data, .none)
    | none, some pattern => .ok (data, .patterns [pattern])
    | none, none => .ok (data, .lineage)
  | v => .ok (v, .lineage)

def fitting (a : Assembly) (pattern : Value) : List Nat :=
  a.result.filter fun id => (a.corpus.data id).fits pattern

def preferring (near ids : List Nat) : List Nat :=
  let preferred := ids.filter near.contains
  if preferred.isEmpty then ids else preferred

/-- The documents that a pattern of a patch selects: those among its ancestors, if there are any. -/
def search (a : Assembly) (patch : Nat) (pattern : Value) : List Nat :=
  preferring (a.corpus.ancestors patch) (a.fitting pattern)

def targets (a : Assembly) (patch : Nat) : Selector → Result (List Nat)
  | .none => .ok []
  | .patterns patterns =>
    patterns.foldlM (fun found pattern =>
      match a.search patch pattern with
      | [] => .error (.of (.patternUnmatched pattern))
      | hits => .ok (hits.foldl (fun found id =>
          if found.contains id then found else found ++ [id]) found)) []
  | .lineage =>
    let ancestors := a.corpus.ancestors patch
    .ok (a.result.filter ancestors.contains)

/-- Merges data into a document, which thereby gets the patch as a parent. -/
def mergeInto (patch : Nat) (data : Value) (c : Corpus) (target : Nat) : Result Corpus := do
  let merged ← (c.data target).merge data ""
  return (c.setData target merged).addParent target patch

def takeIn (a : Assembly) (patch : Nat) : Result Assembly := do
  let (data, selector) ← selection (a.corpus.data patch)
  let emptied := a.corpus.setData patch .null
  match ← { a with corpus := emptied }.targets patch selector with
  | [] =>
    let fresh ← data.normalize ""
    return ⟨emptied.setData patch fresh, a.result ++ [patch]⟩
  | targets =>
    let merged ← targets.foldlM (mergeInto patch data) emptied
    return ⟨merged.setData patch data, a.result⟩

def add (a : Assembly) (patch : Nat) : Result Assembly :=
  (a.takeIn patch).mapError (Error.defaultDocument (a.corpus.label patch))

def ofCorpus (c : Corpus) (order : List Nat) : Result Assembly :=
  order.foldlM add ⟨c, []⟩

end Assembly

end Overlay

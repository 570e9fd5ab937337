import Overlay.Value.Basic

/-!
# Corpora of documents

A corpus numbers its documents in the order in which they were added. A document names its parents:
the documents that it inherits from, or that were merged into it. Parents may lead back to where they
started; `ancestors` visits every document once.
-/

namespace Overlay

/-- A document with a label for messages. Its parents are in increasing order. -/
structure Document where
  label : String
  data : Value
  parents : List Nat
deriving Inhabited

def insertId (id : Nat) : List Nat → List Nat
  | [] => [id]
  | n :: rest => if id < n then id :: n :: rest else if id = n then n :: rest else n :: insertId id rest

structure Corpus where
  documents : List Document := []

namespace Corpus

def size (c : Corpus) : Nat :=
  c.documents.length

def data (c : Corpus) (id : Nat) : Value :=
  (c.documents[id]?.map Document.data).getD .null

def label (c : Corpus) (id : Nat) : String :=
  (c.documents[id]?.map Document.label).getD ""

def parents (c : Corpus) (id : Nat) : List Nat :=
  (c.documents[id]?.map Document.parents).getD []

def add (c : Corpus) (label : String) (data : Value) (parents : List Nat) : Corpus :=
  ⟨c.documents ++ [⟨label, data, parents.foldl (fun ids id => insertId id ids) []⟩]⟩

def setData (c : Corpus) (id : Nat) (v : Value) : Corpus :=
  ⟨c.documents.modify id fun d => { d with data := v }⟩

def addParent (c : Corpus) (id parent : Nat) : Corpus :=
  ⟨c.documents.modify id fun d => { d with parents := insertId parent d.parents }⟩

/-- The documents met from those pending, each once, among those not visited yet. -/
def visit (c : Corpus) (unvisited pending : List Nat) : List Nat :=
  match pending with
  | [] => []
  | id :: rest =>
    if id ∈ unvisited then id :: visit c (unvisited.erase id) (c.parents id ++ rest)
    else visit c unvisited rest
termination_by (unvisited.length, pending.length)
decreasing_by
  · rename_i h
    refine Prod.Lex.left _ _ ?_
    rw [List.length_erase_of_mem h]
    exact Nat.sub_lt (List.length_pos_of_mem h) Nat.one_pos
  · exact Prod.Lex.right _ (Nat.lt_succ_self _)

/-- The documents that parents lead to, the document itself left out, in increasing order. -/
def ancestors (c : Corpus) (id : Nat) : List Nat :=
  let all := List.range c.size
  let met := c.visit (all.erase id) (c.parents id)
  all.filter fun i => met.contains i

end Corpus

end Overlay

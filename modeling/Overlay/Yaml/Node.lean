import Overlay.Yaml.Token.Basic

/-!
# Nodes of a YAML document

A document is a tree of scalars, sequences and mappings with tags and anchors, and of aliases that
name an anchor before them. `document?` reads it from tokens.
-/

namespace Overlay.Yaml

/-- A node whose anchors are names of type `α`. -/
inductive Node (α : Type) where
  | scalar (text : String) (plain : Bool) (tag : Option String) (anchor : Option α)
  | sequence (items : List (Node α)) (tag : Option String) (anchor : Option α)
  | mapping (pairs : List (Node α × Node α)) (tag : Option String) (anchor : Option α)
  | alias (anchor : α)

namespace Node

def empty : Node String :=
  .scalar "" true none none

structure Properties where
  tag : Option String
  anchor : Option String

def tag? (handles : List (String × String)) (handle suffix : String) : Option String :=
  if handle = "" then some suffix
  else (handles.lookup handle).map (· ++ suffix)

def properties? (handles : List (String × String)) :
    List Token → Option (Properties × List Token)
  | .anchor a :: .tag h s :: rest | .tag h s :: .anchor a :: rest =>
    (tag? handles h s).map fun t => (⟨some t, some a⟩, rest)
  | .anchor a :: rest => some (⟨none, some a⟩, rest)
  | .tag h s :: rest => (tag? handles h s).map fun t => (⟨some t, none⟩, rest)
  | rest => some (⟨none, none⟩, rest)

def omits (enders : List Token) : List Token → Bool
  | [] => false
  | t :: _ => enders.contains t

def dropComma? (first : Bool) : List Token → Option (List Token)
  | .comma :: rest => if first then some (.comma :: rest) else some rest
  | rest => if first then some rest else none

def leftOut? (p : Properties) (rest : List Token) : Option (Node String × List Token) :=
  if p.tag.isSome || p.anchor.isSome then some (.scalar "" true p.tag p.anchor, rest) else none

mutual
/-- Reads a node. Block collections are allowed only outside flow collections, and a sequence without
indentation only as an entry of a mapping. -/
def node? (handles : List (String × String)) :
    Nat → Bool → Bool → List Token → Option (Node String × List Token)
  | 0, _, _, _ => none
  | _ + 1, _, _, .alias name :: rest => some (.alias name, rest)
  | fuel + 1, block, flush, tokens => do
    let (p, tokens) ← properties? handles tokens
    match tokens with
    | .scalar text plain :: rest =>
      let tag := p.tag.filter (· ≠ "!")
      some (.scalar text plain tag p.anchor, rest)
    | .openSequence :: rest =>
      (flowItems? handles fuel true rest).map fun (items, rest) =>
        (.sequence items p.tag p.anchor, rest)
    | .openMapping :: rest =>
      (flowPairs? handles fuel true rest).map fun (pairs, rest) =>
        (.mapping pairs p.tag p.anchor, rest)
    | .entry :: rest =>
      if flush then
        (flushItems? handles fuel (.entry :: rest)).map fun (items, rest) =>
          (.sequence items p.tag p.anchor, rest)
      else leftOut? p (.entry :: rest)
    | .blockSequence :: rest =>
      if block then
        (blockItems? handles fuel rest).map fun (items, rest) =>
          (.sequence items p.tag p.anchor, rest)
      else leftOut? p (.blockSequence :: rest)
    | .blockMapping :: rest =>
      if block then
        (blockPairs? handles fuel rest).map fun (pairs, rest) =>
          (.mapping pairs p.tag p.anchor, rest)
      else leftOut? p (.blockMapping :: rest)
    | rest => leftOut? p rest

def blockItems? (handles : List (String × String)) :
    Nat → List Token → Option (List (Node String) × List Token)
  | 0, _ => none
  | _ + 1, .blockEnd :: rest => some ([], rest)
  | fuel + 1, .entry :: rest => do
    let (item, rest) ←
      if omits [.entry, .blockEnd] rest then some (empty, rest)
      else node? handles fuel true false rest
    let (items, rest) ← blockItems? handles fuel rest
    some (item :: items, rest)
  | _ + 1, _ => none

/-- Reads the entries of a sequence that is not indented more than the mapping around it. -/
def flushItems? (handles : List (String × String)) :
    Nat → List Token → Option (List (Node String) × List Token)
  | 0, _ => none
  | fuel + 1, .entry :: rest => do
    let (item, rest) ←
      if omits [.entry, .key, .value, .blockEnd] rest then some (empty, rest)
      else node? handles fuel true false rest
    let (items, rest) ← flushItems? handles fuel rest
    some (item :: items, rest)
  | _ + 1, rest => some ([], rest)

def blockPairs? (handles : List (String × String)) :
    Nat → List Token → Option (List (Node String × Node String) × List Token)
  | 0, _ => none
  | _ + 1, .blockEnd :: rest => some ([], rest)
  | fuel + 1, .key :: rest => do
    let (key, rest) ←
      if omits [.key, .value, .blockEnd] rest then some (empty, rest)
      else node? handles fuel true true rest
    let (v, rest) ←
      match rest with
      | .value :: rest =>
        if omits [.key, .value, .blockEnd] rest then some (empty, rest)
        else node? handles fuel true true rest
      | rest => some (empty, rest)
    let (pairs, rest) ← blockPairs? handles fuel rest
    some ((key, v) :: pairs, rest)
  | _ + 1, _ => none

def flowPair? (handles : List (String × String)) (closing : Token) :
    Nat → List Token → Option ((Node String × Node String) × List Token)
  | 0, _ => none
  | fuel + 1, rest => do
    let (key, rest) ←
      if omits [.value, .comma, closing] rest then some (empty, rest)
      else node? handles fuel false false rest
    match rest with
    | .value :: rest =>
      if omits [.comma, closing] rest then some ((key, empty), rest)
      else (node? handles fuel false false rest).map fun (v, rest) => ((key, v), rest)
    | rest => some ((key, empty), rest)

/-- Reads the entries of a flow sequence. A pair among them is a mapping of its own. -/
def flowItems? (handles : List (String × String)) :
    Nat → Bool → List Token → Option (List (Node String) × List Token)
  | 0, _, _ => none
  | _ + 1, _, .closeSequence :: rest => some ([], rest)
  | fuel + 1, first, tokens => do
    let rest ← dropComma? first tokens
    match rest with
    | .closeSequence :: rest => some ([], rest)
    | .key :: rest =>
      let (pair, rest) ← flowPair? handles .closeSequence fuel rest
      let (items, rest) ← flowItems? handles fuel false rest
      some (.mapping [pair] none none :: items, rest)
    | rest =>
      let (item, rest) ← node? handles fuel false false rest
      let (items, rest) ← flowItems? handles fuel false rest
      some (item :: items, rest)

/-- Reads the pairs of a flow mapping. An entry without a colon is a key. -/
def flowPairs? (handles : List (String × String)) :
    Nat → Bool → List Token → Option (List (Node String × Node String) × List Token)
  | 0, _, _ => none
  | _ + 1, _, .closeMapping :: rest => some ([], rest)
  | fuel + 1, first, tokens => do
    let rest ← dropComma? first tokens
    match rest with
    | .closeMapping :: rest => some ([], rest)
    | .key :: rest =>
      let (pair, rest) ← flowPair? handles .closeMapping fuel rest
      let (pairs, rest) ← flowPairs? handles fuel false rest
      some (pair :: pairs, rest)
    | rest =>
      let (key, rest) ← node? handles fuel false false rest
      let (pairs, rest) ← flowPairs? handles fuel false rest
      some ((key, empty) :: pairs, rest)
end

/-- Reads the directives before a document: at most one version, and each handle once. -/
def directives? (versioned : Bool) (handles : List (String × String)) :
    List Token → Option (List (String × String) × List Token)
  | .version major minor :: rest =>
    if versioned || major ≠ 1 || (minor ≠ 1 && minor ≠ 2) then none
    else directives? true handles rest
  | .tagHandle handle start :: rest =>
    if (handles.lookup handle).isSome then none
    else directives? versioned (handles ++ [(handle, start)]) rest
  | rest => some (handles, rest)

def withDefaults (handles : List (String × String)) : List (String × String) :=
  handles ++ [("!", "!"), ("!!", "tag:yaml.org,2002:")]

def isEnd (tokens : List Token) : Bool :=
  tokens.all (· == .documentEnd)

def document? (tokens : List Token) : Option (Node String) := do
  let fuel := 3 * tokens.length + 3
  let (handles, rest) ← directives? false [] tokens
  let (root, rest) ←
    match rest with
    | .documentStart :: rest =>
      match rest with
      | [] | .documentEnd :: _ | .documentStart :: _ | .version _ _ :: _ | .tagHandle _ _ :: _ =>
        some (empty, rest)
      | rest => node? (withDefaults handles) fuel true false rest
    | [] => if tokens.isEmpty then some (empty, []) else none
    | rest =>
      if tokens.length = rest.length then node? (withDefaults []) fuel true false rest else none
  if isEnd rest then some root else none

end Node

end Overlay.Yaml

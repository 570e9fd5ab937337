import Overlay.Yaml.Token.Basic
import Overlay.Yaml.Token.Scalar

/-!
# Tokens of a text

Tokens are read one after the other. A key of a mapping shows only at the colon after it, so every
place where one may start is remembered, one for each flow collection that is open, and the tokens
that open the key are put there once the colon comes. Such a key lies within one line and 1024
characters.
-/

namespace Overlay.Yaml

/-- A place where a key may have started. -/
structure PendingKey where
  position : Nat
  index : Nat
  line : Nat
  column : Nat
  /-- Whether the block mapping around it allows nothing else here. -/
  required : Bool

structure Scan where
  cursor : Cursor
  tokens : List Token
  count : Nat
  indents : List Nat
  /-- The key that may have started in each open flow collection, innermost first, and last the one
  outside of them. -/
  keys : List (Option PendingKey)
  keyAllowed : Bool

namespace Scan

def start (s : List Char) : Scan :=
  ⟨Cursor.start s, [], 0, [], [none], true⟩

def inFlow (s : Scan) : Bool :=
  1 < s.keys.length

def indent (s : Scan) : Int :=
  match s.indents with
  | [] => -1
  | n :: _ => n

def add (t : Token) (s : Scan) : Scan :=
  { s with tokens := t :: s.tokens, count := s.count + 1 }

def addAt (position : Nat) (t : Token) (s : Scan) : Scan :=
  let later := s.count - position
  { s with tokens := s.tokens.take later ++ t :: s.tokens.drop later, count := s.count + 1 }

def addPassing (width : Nat) (t : Token) (s : Scan) : Scan :=
  { s.add t with cursor := s.cursor.advance width }

def allowKey (allowed : Bool) (s : Scan) : Scan :=
  { s with keyAllowed := allowed }

def openBlock (column position : Nat) (t : Token) (s : Scan) : Scan :=
  if !s.inFlow && s.indent < column then
    { s.addAt position t with indents := column :: s.indents }
  else s

def closeBlocks (column : Int) (s : Scan) : Scan :=
  if s.inFlow then s
  else
    let closed := (s.indents.takeWhile fun (n : Nat) => column < (n : Int)).length
    { s with
      tokens := List.replicate closed .blockEnd ++ s.tokens
      count := s.count + closed
      indents := s.indents.drop closed }

def dropKey? (s : Scan) : Option Scan :=
  match s.keys with
  | some k :: rest => if k.required then none else some { s with keys := none :: rest }
  | _ => some s

def saveKey? (s : Scan) : Option Scan :=
  if s.keyAllowed then do
    let s ← s.dropKey?
    let required := !s.inFlow && s.indent = s.cursor.column
    let key : PendingKey :=
      ⟨s.count, s.cursor.index, s.cursor.line, s.cursor.column, required⟩
    some { s with keys := some key :: s.keys.tail }
  else some s

def isStale (c : Cursor) (k : PendingKey) : Bool :=
  k.line < c.line || k.index + 1024 < c.index

def dropStaleKeys? (s : Scan) : Option Scan :=
  let stale := fun (k : Option PendingKey) => k.any (isStale s.cursor)
  if s.keys.any fun k => stale k && k.any (·.required) then none
  else some { s with keys := s.keys.map fun k => if stale k then none else k }

/-- Passes blanks, comments and line breaks. Tabs count as blanks where no key may start, and so does
a mark of the byte order at the start of a line. -/
def skipSpace : Nat → Scan → Scan
  | 0, s => s
  | fuel + 1, s =>
    let tabs := s.inFlow || !s.keyAllowed
    let c := s.cursor
    let c := if c.column = 0 && c.peek = some '\uFEFF' then c.next else c
    let c := c.skip fun ch => ch = ' ' || (tabs && ch = '\t')
    let c := if c.peek = some '#' then c.skipToBreak else c
    if c.peek.any isBreak then
      skipSpace fuel { s with cursor := c.nextLine, keyAllowed := s.keyAllowed || !s.inFlow }
    else { s with cursor := c }

def readName? (c : Cursor) : Option (String × Cursor) :=
  let (name, c) := c.span isNameChar
  let ends := separates c.peek
    || c.peek.any (['?', ':', ',', ']', '\x7d', '%', '@', '\x60'].contains ·)
  if name.isEmpty || !ends then none else some (String.ofList name, c)

def isTagChar (c : Char) : Bool :=
  isNameChar c || [';', '/', '?', ':', '@', '&', '=', '+', '$', '.', '!', '~', '*', '\x27', '(', ')',
    '%'].contains c

def isVerbatimChar (c : Char) : Bool :=
  isTagChar c || [',', '[', ']'].contains c

/-- Reads a tag after its sign: a handle and a suffix, either of which may be empty. -/
def readTag? (inFlow : Bool) (c : Cursor) : Option (Token × Cursor) := do
  let (t, c) ← match c.peekAt 1 with
    | some '<' =>
      let (name, c) := (c.advance 2).span isVerbatimChar
      if name.isEmpty || c.peek ≠ some '>' then none
      else some (Token.tag "" (String.ofList name), c.next)
    | _ =>
      let (name, after) := c.next.span isNameChar
      if after.peek = some '!' then
        let (suffix, c) := after.next.span isTagChar
        if suffix.isEmpty then none
        else some (Token.tag (String.ofList ('!' :: name ++ ['!'])) (String.ofList suffix), c)
      else
        let (suffix, c) := c.next.span isTagChar
        if suffix.isEmpty then some (Token.tag "" "!", c)
        else some (Token.tag "!" (String.ofList suffix), c)
  if separates c.peek || (inFlow && c.peek = some ',') then some (t, c) else none

def readVersionPart? (c : Cursor) : Option (Nat × Cursor) :=
  let (digits, c) := c.span Text.isDigit
  if digits.isEmpty || 9 < digits.length then none else some (Text.natOfDigits 10 digits, c)

def readDirective? (c : Cursor) : Option (Token × Cursor) := do
  let (name, c) := c.span isNameChar
  let c := c.skip isSpace
  let (t, c) ← if name = "YAML".toList then do
      let (major, c) ← readVersionPart? c
      let c ← if c.peek = some '.' then some c.next else none
      let (minor, c) ← readVersionPart? c
      some (Token.version major minor, c)
    else if name = "TAG".toList then do
      let (handle, c) := c.span fun ch => ch = '!' || isNameChar ch
      let opens := handle.head? = some '!' && handle.getLast? = some '!'
      let c ← if opens && separates c.peek then some (c.skip isSpace) else none
      let (tagStart, c) := c.span isVerbatimChar
      if tagStart.isEmpty || !separates c.peek then none
      else some (Token.tagHandle (String.ofList handle) (String.ofList tagStart), c)
    else none
  let c := c.skip isSpace
  let c := if c.peek = some '#' then c.skipToBreak else c
  if c.peek.all isBreak then some (t, c) else none

def addScalar (plain : Bool) (text : String) (c : Cursor) (s : Scan) : Scan :=
  { s.add (.scalar text plain) with cursor := c }

def openFlow? (t : Token) (s : Scan) : Option Scan := do
  let s ← s.saveKey?
  some { (s.addPassing 1 t).allowKey true with keys := none :: s.keys }

def closeFlow? (t : Token) (s : Scan) : Option Scan := do
  let s ← s.dropKey?
  let keys := match s.keys with
    | _ :: k :: rest => k :: rest
    | keys => keys
  some { (s.addPassing 1 t).allowKey false with keys }

def addMark? (t : Token) (s : Scan) : Option Scan := do
  let s ← (s.closeBlocks (-1)).dropKey?
  some ((s.addPassing 3 t).allowKey false)

def addEntry? (s : Scan) : Option Scan := do
  let s ← if s.inFlow then some s
    else if s.keyAllowed then some (s.openBlock s.cursor.column s.count .blockSequence)
    else none
  let s ← s.dropKey?
  some ((s.addPassing 1 .entry).allowKey true)

def addKey? (s : Scan) : Option Scan := do
  let s ← if s.inFlow then some s
    else if s.keyAllowed then some (s.openBlock s.cursor.column s.count .blockMapping)
    else none
  let s ← s.dropKey?
  some ((s.addPassing 1 .key).allowKey !s.inFlow)

/-- Adds the sign of a value. A key that may have started is one now. -/
def addValue? (s : Scan) : Option Scan :=
  match s.keys with
  | some k :: rest =>
    let s := s.addAt k.position .key
    let s := s.openBlock k.column k.position .blockMapping
    some ({ s with keys := none :: rest }.addPassing 1 .value |>.allowKey false)
  | _ =>
    if s.inFlow then some ((s.addPassing 1 .value).allowKey false)
    else if s.keyAllowed then
      let s := s.openBlock s.cursor.column s.count .blockMapping
      some ((s.addPassing 1 .value).allowKey true)
    else none

def addName? (make : String → Token) (s : Scan) : Option Scan := do
  let s ← s.saveKey?
  let (name, c) ← readName? s.cursor.next
  some ({ s.add (make name) with cursor := c }.allowKey false)

def startsPlain (inFlow : Bool) (c : Char) (following : Option Char) : Bool :=
  !(separates (some c) || ['-', '?', ':', ',', '[', ']', '\x7b', '\x7d', '#', '&', '*', '!', '|', '>',
      '\x27', '\x22', '%', '@', '\x60'].contains c)
    || (c = '-' && !(following.any isSpace))
    || (!inFlow && (c = '?' || c = ':') && !separates following)

/-- Adds the token that starts with a character. The fuel exceeds the number of characters left. -/
def addToken? (fuel : Nat) (ch : Char) (s : Scan) : Option Scan := do
  let following := s.cursor.peekAt 1
  if s.cursor.column = 0 && ch = '%' then do
    let s ← (s.closeBlocks (-1)).dropKey?
    let (t, c) ← readDirective? s.cursor.next
    some { s.add t with cursor := c, keyAllowed := false }
  else if s.cursor.atMark "---" then s.addMark? .documentStart
  else if s.cursor.atMark "..." then s.addMark? .documentEnd
  else if ch = '[' then s.openFlow? .openSequence
  else if ch = '\x7b' then s.openFlow? .openMapping
  else if ch = ']' then s.closeFlow? .closeSequence
  else if ch = '\x7d' then s.closeFlow? .closeMapping
  else if ch = ',' then do
    let s ← s.dropKey?
    some ((s.addPassing 1 .comma).allowKey true)
  else if ch = '-' && separates following then s.addEntry?
  else if ch = '?' && (s.inFlow || separates following) then s.addKey?
  else if ch = ':' && (s.inFlow || separates following) then s.addValue?
  else if ch = '*' then s.addName? .alias
  else if ch = '&' then s.addName? .anchor
  else if ch = '!' then do
    let s ← s.saveKey?
    let (t, c) ← readTag? s.inFlow s.cursor
    some { s.add t with cursor := c, keyAllowed := false }
  else if (ch = '|' || ch = '>') && !s.inFlow then do
    let s ← s.dropKey?
    let (text, c) ← readBlock (ch = '|') s.indent s.cursor.next
    some ((s.addScalar false text c).allowKey true)
  else if ch = '\x27' || ch = '\x22' then do
    let s ← s.saveKey?
    let (text, c) ← readQuoted (ch = '\x27') fuel .empty s.cursor.next
    some ((s.addScalar false text c).allowKey false)
  else if startsPlain s.inFlow ch following then do
    let s ← s.saveKey?
    let (f, c) ← readPlain s.inFlow (s.indent + 1) fuel .empty s.cursor
    some ((s.addScalar true f.result c).allowKey f.broken)
  else none

def run? : Nat → Scan → Option Scan
  | 0, _ => none
  | fuel + 1, s => do
    let s := s.skipSpace (fuel + 1)
    let s ← s.dropStaleKeys?
    let s := s.closeBlocks s.cursor.column
    match s.cursor.peek with
    | some ch => do
      let s ← s.addToken? (fuel + 1) ch
      run? fuel s
    | none => (s.closeBlocks (-1)).dropKey?

end Scan

def tokens? (text : String) : Option (List Token) :=
  let s := text.toList
  let s := if s.head? = some '\uFEFF' then s.tail else s
  if s.all isAllowed then
    ((Scan.start s).run? (s.length + 2)).map fun scan => scan.tokens.reverse
  else none

end Overlay.Yaml

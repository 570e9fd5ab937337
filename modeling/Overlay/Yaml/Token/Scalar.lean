import Overlay.Text.Numeral
import Overlay.Yaml.Cursor

/-!
# Texts of scalars

Plain and quoted scalars may run over several lines. The blanks around a line break are dropped; a
single break becomes a blank and of several all but the first stay. Block scalars keep their lines
below the indentation, or fold them in the same way.
-/

namespace Overlay.Yaml

/-- A scalar read so far, its pieces reversed, and the white space after it, which counts only if
more text follows. -/
structure Folded where
  text : List Char
  blanks : List Char
  firstBreak : Option Char
  laterBreaks : List Char
  broken : Bool

namespace Folded

def empty : Folded :=
  ⟨[], [], none, [], false⟩

def pending (f : Folded) : Bool :=
  f.broken || !f.blanks.isEmpty

def addBlank (c : Char) (f : Folded) : Folded :=
  if f.broken then f else { f with blanks := c :: f.blanks }

def addBreak (c : Char) (f : Folded) : Folded :=
  if f.broken then { f with laterBreaks := breakChar c :: f.laterBreaks }
  else { f with blanks := [], firstBreak := some (breakChar c), broken := true }

/-- Notes a line break that is to leave no trace. -/
def joinLines (f : Folded) : Folded :=
  { f with broken := true }

def space (f : Folded) : List Char :=
  if f.broken then
    match f.firstBreak with
    | some '\n' => if f.laterBreaks.isEmpty then [' '] else f.laterBreaks
    | some c => f.laterBreaks ++ [c]
    | none => f.laterBreaks
  else f.blanks

def settle (f : Folded) : Folded :=
  ⟨f.space ++ f.text, [], none, [], false⟩

def add (c : Char) (f : Folded) : Folded :=
  let f := f.settle
  { f with text := c :: f.text }

def result (f : Folded) : String :=
  String.ofList f.text.reverse

end Folded

def endsPlain (inFlow : Bool) (c : Char) (following : Option Char) : Bool :=
  (c = ':' && separates following) || (inFlow && [',', '[', ']', '\x7b', '\x7d'].contains c)

def strayColon (inFlow : Bool) (c : Char) : Option Char → Bool
  | some d => inFlow && c = ':' && [',', '?', '[', ']', '\x7b', '\x7d'].contains d
  | none => false

/-- Reads a plain scalar. Outside flow collections its lines have to be indented. -/
def readPlain (inFlow : Bool) (indent : Int) : Nat → Folded → Cursor → Option (Folded × Cursor)
  | 0, f, c => some (f, c)
  | fuel + 1, f, c =>
    match c.peek with
    | none => some (f, c)
    | some ch =>
      if isSpace ch then
        if f.broken && (c.column : Int) < indent && ch = '\t' then none
        else readPlain inFlow indent fuel (f.addBlank ch) c.next
      else if isBreak ch then readPlain inFlow indent fuel (f.addBreak ch) c.nextLine
      else if f.pending &&
          ((!inFlow && (c.column : Int) < indent) || c.atDocumentMark || ch = '#') then
        some (f, c)
      else if strayColon inFlow ch (c.peekAt 1) then none
      else if endsPlain inFlow ch (c.peekAt 1) then some (f, c)
      else readPlain inFlow indent fuel (f.add ch) c.next

def namedEscape? : Char → Option Char
  | '0' => some '\x00'
  | 'a' => some '\x07'
  | 'b' => some '\x08'
  | 't' => some '\t'
  | '\t' => some '\t'
  | 'n' => some '\n'
  | 'v' => some '\x0b'
  | 'f' => some '\x0c'
  | 'r' => some '\r'
  | 'e' => some '\x1b'
  | ' ' => some ' '
  | '\x22' => some '\x22'
  | '/' => some '/'
  | '\\' => some '\\'
  | 'N' => some '\u0085'
  | '_' => some '\u00a0'
  | 'L' => some '\u2028'
  | 'P' => some '\u2029'
  | _ => none

def codeWidth? : Char → Option Nat
  | 'x' => some 2
  | 'u' => some 4
  | 'U' => some 8
  | _ => none

def readEscape? (c : Cursor) : Option (Char × Cursor) := do
  let ch ← c.peek
  match codeWidth? ch with
  | some width =>
    let digits := (c.next.rest).take width
    let n ← if digits.length = width then Text.readNat? 16 digits else none
    if n.isValidChar then some (Char.ofNat n, c.advance (width + 1)) else none
  | none =>
    let e ← namedEscape? ch
    some (e, c.next)

def readQuoted (single : Bool) : Nat → Folded → Cursor → Option (String × Cursor)
  | 0, _, _ => none
  | fuel + 1, f, c =>
    match c.peek with
    | none => none
    | some ch =>
      if isSpace ch then readQuoted single fuel (f.addBlank ch) c.next
      else if isBreak ch then readQuoted single fuel (f.addBreak ch) c.nextLine
      else if c.atDocumentMark then none
      else if single then
        if ch = '\x27' then
          if c.peekAt 1 = some '\x27' then readQuoted single fuel (f.add ch) (c.advance 2)
          else some (f.settle.result, c.next)
        else readQuoted single fuel (f.add ch) c.next
      else if ch = '\x22' then some (f.settle.result, c.next)
      else if ch = '\\' then
        if (c.peekAt 1).any isBreak then
          readQuoted single fuel f.settle.joinLines c.next.nextLine
        else
          match readEscape? c.next with
          | some (e, c) => readQuoted single fuel (f.add e) c
          | none => none
      else readQuoted single fuel (f.add ch) c.next

inductive Chomping where
  | strip
  | clip
  | keep
deriving DecidableEq

def chomping? : Option Char → Option Chomping
  | some '+' => some .keep
  | some '-' => some .strip
  | _ => none

def indentDigit? : Option Char → Option Nat
  | some c => if Text.isDigit c ∧ c ≠ '0' then some (Text.digitValue c) else none
  | none => none

def readHeader (c : Cursor) : Chomping × Option Nat × Cursor :=
  match chomping? c.peek with
  | some chomping =>
    match indentDigit? c.next.peek with
    | some n => (chomping, some n, c.advance 2)
    | none => (chomping, none, c.next)
  | none =>
    match indentDigit? c.peek with
    | some n =>
      match chomping? c.next.peek with
      | some chomping => (chomping, some n, c.advance 2)
      | none => (.clip, some n, c.next)
    | none => (.clip, none, c)

/-- Passes empty lines and the indentation of the next line, up to a given width if there is one.
Answers the widest indentation seen and the breaks passed, reversed. -/
def readMargin (indent : Option Nat) : Nat → Nat → List Char → Cursor →
    Option (Nat × List Char × Cursor)
  | 0, _, _, _ => none
  | fuel + 1, widest, breaks, c =>
    let inside (c : Cursor) : Bool := indent.all (c.column < ·)
    match c.peek with
    | some ' ' =>
      if inside c then readMargin indent fuel (max widest (c.column + 1)) breaks c.next
      else some (max widest c.column, breaks, c)
    | some ch =>
      if ch = '\t' && inside c then none
      else if isBreak ch then
        readMargin indent fuel (max widest c.column) (breakChar ch :: breaks) c.nextLine
      else some (max widest c.column, breaks, c)
    | none => some (max widest c.column, breaks, c)

structure Block where
  text : List Char
  lastBreak : List Char
  emptyLines : List Char
  afterBlank : Bool

/-- The break before a line as it counts. Between two lines that start with no blank a folded
scalar has a blank for it, or nothing if empty lines follow. -/
def Block.joint (literal : Bool) (b : Block) (startsBlank : Bool) : List Char :=
  if !literal && b.lastBreak = ['\n'] && !b.afterBlank && !startsBlank then
    if b.emptyLines.isEmpty then [' '] else []
  else b.lastBreak

def readLines (literal : Bool) (indent : Nat) : Nat → Block → Cursor → Option (Block × Cursor)
  | 0, _, _ => none
  | fuel + 1, b, c =>
    if c.column ≠ indent || c.rest.isEmpty then some (b, c)
    else do
      let startsBlank := c.peek.any isSpace
      let (line, c) := c.span fun ch => !isBreak ch
      let text := line.reverse ++ b.emptyLines ++ b.joint literal startsBlank ++ b.text
      let lastBreak := (c.peek.map breakChar).toList
      let c := if c.rest.isEmpty then c else c.nextLine
      let (_, emptyLines, c) ← readMargin (some indent) (c.rest.length + 1) 0 [] c
      readLines literal indent fuel ⟨text, lastBreak, emptyLines, startsBlank⟩ c

def readBlock (literal : Bool) (parent : Int) (c : Cursor) : Option (String × Cursor) := do
  let (chomping, digit, c) := readHeader c
  let c := c.skip isSpace
  let c := if c.peek = some '#' then c.skipToBreak else c
  let c ← match c.peek with
    | none => some c
    | some ch => if isBreak ch then some c.nextLine else none
  let given := digit.map fun n => if 0 ≤ parent then parent.toNat + n else n
  let (widest, emptyLines, c) ← readMargin given (c.rest.length + 1) 0 [] c
  let indent := given.getD (max widest (max (parent + 1).toNat 1))
  let (b, c) ← readLines literal indent (c.rest.length + 1) ⟨[], [], emptyLines, false⟩ c
  let ending := if chomping = .strip then [] else b.lastBreak
  let extra := if chomping = .keep then b.emptyLines else []
  some (String.ofList (extra ++ ending ++ b.text).reverse, c)

end Overlay.Yaml

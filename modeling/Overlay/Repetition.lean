import Overlay.Error
import Overlay.Word

/-!
# Repetition

A specification of copies gives the bindings of each copy. It is a number of copies, a list of
values, a range, or a map of named dimensions, each of which is one of those; the copies are then
all combinations, the last name varying fastest. There are at most 100000 copies, and all numbers
stay within 64 bits.
-/

namespace Overlay

abbrev Binding := List (String × Value)

namespace Repetition

def copyLimit : Int := 100000

def fault {α : Type} (f : RepeatFault) : Result α :=
  .error (.of (.badRepeat f))

def checkCopies (copies : Int) : Result Unit :=
  if copyLimit < copies then fault (.tooMany copies) else .ok ()

def fitting (n : Int) : Result Int :=
  if Word.Fits n then .ok n else fault .overflow

def rangeKeys : List String :=
  [Directive.first, Directive.last, Directive.count, Directive.step]

def isRange (entries : Entries Value) : Bool :=
  rangeKeys.any fun k => Entries.has k entries

def bound? (entries : Entries Value) (key : String) : Result (Option Int) :=
  match Entries.lookup key entries with
  | none => .ok none
  | some (.int n) => .ok (some n.toInt)
  | some v => fault (.rangeBound key v.kind)

/-- The first number and the length of a range, of which two of three numbers are given. -/
def extent (first last count : Option Int) (step : Int) : Result (Int × Int) :=
  match first, last, count with
  | some first, some last, none => do
    let span ← fitting (last - first)
    let steps ← fitting (Int.tdiv span step)
    if Int.tmod span step ≠ 0 ∨ steps < 0 then fault (.unreachable first last step)
    else return (first, ← fitting (steps + 1))
  | some first, none, some count => .ok (first, count)
  | none, some last, some count => do
    let before ← fitting (count - 1)
    let offset ← fitting (before * step)
    return (← fitting (last - offset), count)
  | _, _, _ => fault .rangeArity

def numberAt (first step : Int) (position : Nat) : Result Value := do
  let offset ← fitting (position * step)
  let n ← fitting (first + offset)
  return .int (Int64.ofInt n)

def range (entries : Entries Value) : Result (List Value) := do
  match (Entries.keys entries).find? fun k => !rangeKeys.contains k with
  | some key => fault (.rangeKey key)
  | none =>
    let first ← bound? entries Directive.first
    let last ← bound? entries Directive.last
    let count ← bound? entries Directive.count
    let step := (← bound? entries Directive.step).getD 1
    if step = 0 then fault .zeroStep
    else
      let (first, count) ← extent first last count step
      if count ≤ 0 then fault (.emptyRange count)
      else
        checkCopies count
        (List.range count.toNat).mapM (numberAt first step)

def dimension : Value → Result (List Value)
  | .int n =>
    if n.toInt < 0 then fault (.negativeCount n.toInt)
    else do
      checkCopies n.toInt
      return (List.range n.toInt.toNat).map fun i => .int (Int64.ofNat i)
  | .list items => .ok items
  | .map entries => if isRange entries then range entries else fault (.notRepeatable "map")
  | v => fault (.notRepeatable v.kind)

def extend (symbol : String) (values : List Value) (bindings : List Binding) : List Binding :=
  bindings.flatMap fun b => values.map fun v => b ++ [(symbol, v)]

def combinations (bindings : List Binding) : List (String × Value) → Result (List Binding)
  | [] => .ok bindings
  | (name, spec) :: rest =>
    if name.startsWith "$" then fault (.dimensionKey name)
    else do
      let values ← dimension spec
      checkCopies (bindings.length * values.length)
      combinations (extend (Directive.repeatSymbol ++ name) values bindings) rest

def bindings (spec : Value) : Result (List Binding) :=
  let unnamed := (dimension spec).map fun values => values.map fun v => [(Directive.repeatOver, v)]
  match spec with
  | .map [] => fault .noDimension
  | .map entries => if isRange entries then unnamed else combinations [[]] entries
  | _ => unnamed

end Repetition

end Overlay

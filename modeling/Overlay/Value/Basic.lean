import Overlay.Directive
import Overlay.Entries

/-!
# Configuration values

A value is a scalar, a map whose entries are sorted by key, or a list. `==` compares numbers as the
machine does: zero equals its negative and a float that is no number equals nothing, so `==` is not
reflexive. Integers and floats are never `==`; `looselyEqual` compares those by value.
-/

namespace Overlay

/-- A configuration value. The entries of a map are sorted by key. -/
inductive Value where
  | null
  | bool (b : Bool)
  | int (n : Int64)
  | float (x : Float)
  | string (s : String)
  | map (entries : List (String × Value))
  | list (items : List Value)
deriving Inhabited

namespace Value

mutual
/-- Equality of values, floats compared as numbers. -/
def equal : Value → Value → Bool
  | .null, .null => true
  | .bool a, .bool b => a == b
  | .int a, .int b => a == b
  | .float a, .float b => a == b
  | .string a, .string b => a == b
  | .map a, .map b => equalEntries a b
  | .list a, .list b => equalItems a b
  | _, _ => false

def equalItems : List Value → List Value → Bool
  | [], [] => true
  | x :: xs, y :: ys => equal x y && equalItems xs ys
  | _, _ => false

def equalEntries : List (String × Value) → List (String × Value) → Bool
  | [], [] => true
  | (k, x) :: xs, (l, y) :: ys => k == l && equal x y && equalEntries xs ys
  | _, _ => false
end

instance : BEq Value := ⟨equal⟩

/-- Equality that takes an integer and a float for one number if they have one value. -/
def looselyEqual : Value → Value → Bool
  | .int a, .float b => Float.ofInt a.toInt == b
  | .float a, .int b => Float.ofInt b.toInt == a
  | a, b => a == b

def kind : Value → String
  | .null => "null"
  | .bool _ => "bool"
  | .int _ => "int"
  | .float _ => "float"
  | .string _ => "string"
  | .map _ => "map"
  | .list _ => "list"

def isNull : Value → Bool
  | .null => true
  | _ => false

def isMap : Value → Bool
  | .map _ => true
  | _ => false

def isScalar : Value → Bool
  | .null | .map _ | .list _ => false
  | _ => true

def isString (text : String) : Value → Bool
  | .string s => s == text
  | _ => false

def isRequired (v : Value) : Bool :=
  v.isString Directive.required

def isEmptyContainer : Value → Bool
  | .map entries => entries.isEmpty
  | .list items => items.isEmpty
  | _ => false

def entry? (key : String) : Value → Option Value
  | .map entries => Entries.lookup key entries
  | _ => none

def soleArgument? (key : String) : Value → Option Value
  | .map [(k, x)] => if k = key then some x else none
  | _ => none

theorem soleArgument?_eq_some {key : String} {v x : Value} :
    v.soleArgument? key = some x ↔ v = .map [(key, x)] := by
  constructor
  · intro h
    unfold soleArgument? at h
    split at h
    · split at h
      · rename_i hk
        subst hk; cases h
        rfl
      · cases h
    · cases h
  · rintro rfl
    simp [soleArgument?]

mutual
/-- Every map inside a value is sorted by key. -/
def WellFormed : Value → Prop
  | .map entries => Entries.Sorted entries ∧ WellFormedEntries entries
  | .list items => WellFormedItems items
  | _ => True

def WellFormedItems : List Value → Prop
  | [] => True
  | x :: xs => WellFormed x ∧ WellFormedItems xs

def WellFormedEntries : List (String × Value) → Prop
  | [] => True
  | (_, x) :: rest => WellFormed x ∧ WellFormedEntries rest
end

end Value

end Overlay

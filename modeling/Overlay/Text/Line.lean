/-!
# Lines and fields

A line ends with a line feed, which may follow one carriage return; a text that ends with a line
feed has no empty line after it. Fields are what stands between the occurrences of a separator, so
`n` separators make `n + 1` fields.
-/

namespace Overlay.Text

def fields (separator : Char) : List Char → List (List Char)
  | [] => [[]]
  | c :: s =>
    if c = separator then [] :: fields separator s
    else
      match fields separator s with
      | [] => [[c]]
      | f :: rest => (c :: f) :: rest

def cut (isSeparator : Char → Bool) : List Char → Option (List Char × List Char)
  | [] => none
  | c :: s =>
    if isSeparator c then some ([], s)
    else (cut isSeparator s).map fun (before, after) => (c :: before, after)

def dropReturn (line : List Char) : List Char :=
  if line.getLast? = some '\r' then line.dropLast else line

def lines (s : List Char) : List (List Char) :=
  let parts := fields '\n' s
  let closed := parts.dropLast.map dropReturn
  match parts.getLast? with
  | none | some [] => closed
  | some open_ => closed ++ [open_]

def after? : List Char → List Char → Option (List Char)
  | [], s => some s
  | _ :: _, [] => none
  | p :: ps, c :: s => if p = c then after? ps s else none

def starts (start s : List Char) : Bool :=
  (after? start s).isSome

def joined (separator : String) (parts : List String) : String :=
  String.intercalate separator parts

end Overlay.Text

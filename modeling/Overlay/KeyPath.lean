/-!
# Key paths

Where a value stands inside a document, as text: the keys and list positions on the way to it,
joined by dots. The root has the empty path.
-/

namespace Overlay.KeyPath

/-- The path of a child. A child of the root is named by its segment alone. -/
def child (parent segment : String) : String :=
  if parent = "" then segment else parent ++ "." ++ segment

def item (parent : String) (position : Nat) : String :=
  child parent (toString position)

end Overlay.KeyPath

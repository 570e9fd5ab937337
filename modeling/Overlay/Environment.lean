import Overlay.Value.Basic

/-!
# Environments

The variables that a document sees while it is instantiated. They are bound under full symbols, such
as `$env:NAME`, `$repeat` and `$repeat:name`.
-/

namespace Overlay

abbrev Environment := Entries Value

namespace Environment

def ofVariables (vars : List (String × String)) : Environment :=
  Entries.ofList (vars.map fun (name, text) => (Directive.envSymbol ++ name, .string text))

def bindAll (bindings : List (String × Value)) (env : Environment) : Environment :=
  bindings.foldl (fun env (symbol, v) => Entries.insert symbol v env) env

@[simp] theorem bindAll_cons (symbol : String) (v : Value) (rest : List (String × Value))
    (env : Environment) :
    bindAll ((symbol, v) :: rest) env = bindAll rest (Entries.insert symbol v env) := rfl

end Environment

end Overlay

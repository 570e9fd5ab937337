/-!
# Directive keys

A key or string that starts with `$` steers evaluation. `$$` stands for a plain `$`.
-/

namespace Overlay.Directive

def parent := "$parent"
def matchOne := "$match"
def matchAny := "$matches"
/-- A flag that replaces a container wholesale, or a reference that stands for the node. -/
def replace := "$replace"
def delete := "$delete"
/-- A reference whose target the sibling keys are merged onto. -/
def merge := "$merge"
def repeatOver := "$repeat"
def encode := "$encode"
def decode := "$decode"
def value := "$value"
/-- Whether a subtree is an output of its own. -/
def output := "$output"
/-- Turns the verdict of a map pattern around. -/
def invert := "$invert"
def path := "$path"
/-- Marks a value that a later layer has to provide. -/
def required := "$required"

def first := "$first"
def last := "$last"
def count := "$count"
def step := "$step"

def envSymbol := "$env:"
def repeatSymbol := "$repeat:"
def mergeSymbol := "$merge:"
def replaceSymbol := "$replace:"

end Overlay.Directive

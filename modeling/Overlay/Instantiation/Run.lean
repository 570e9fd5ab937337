import Overlay.Instantiation.Congruence

/-!
# Running instantiation

A value is instantiated with all documents that are embedded in it, and those embedded in these, as
far down as there are any. `within` gives up on documents that are embedded too deeply.
-/

namespace Overlay.Instantiation

def Frame.run (f : Frame) (v : Value) (env : Environment) (path : String) :
    Option (Result (Option Value)) :=
  instantiate f (f |>.run) v env path
-- A run on longer continuations is the same unless it does not end on the shorter ones.
partial_fixpoint monotonicity fun shorter longer h v => by
  have hk : Respects .below fun b => bif b then longer else shorter := by
    intro u env path
    have h' := h u env path
    simp only [Course.Congruence.below, cond_false, cond_true]
    generalize shorter u env path = x at h'
    generalize longer u env path = y at h'
    cases h' with
    | bot => exact .inl rfl
    | refl => exact .inr rfl
  intro env path
  have below := instantiate_congr .below f hk v env path
  simp only [Course.Congruence.below, cond_false, cond_true] at below
  dsimp only
  generalize instantiate f shorter v env path = x at below ⊢
  rcases below with rfl | rfl
  · exact .bot
  · exact .refl

/-- Instantiates a value as `Frame.run` does, but does not end on documents that are embedded in one
another to a depth. -/
def within (f : Frame) : Nat → Continuation
  | 0, _, _, _ => none
  | depth + 1, v, env, path => instantiate f (within f depth) v env path

def runSpec (f : Frame) (again : Continuation) (spec : Value) (env : Environment) (path : String) :
    Course (List Environment) := do
  environments (← specValue f again spec env path) env path

end Overlay.Instantiation
